import MindooDB.Lib.TextEncoding

/-!
# Lib/Utf8 — decoding UTF-8 with replacement

`new TextDecoder().decode(bytes)`: a byte that does not continue the sequence begun ends it with
U+FFFD and is read afresh, and a leading byte order mark is dropped.  What was encoded is decoded,
unless it begins with such a mark (`decode_encode`).
-/

namespace Utf8

open List TextEncoding

/-- The decoder between two bytes: the code point begun, the bytes seen of those needed, and the
range the next byte has to lie in. -/
structure DecoderState where
  codePoint : ℕ := 0
  seen : ℕ := 0
  needed : ℕ := 0
  lower : ℕ := 0x80
  upper : ℕ := 0xBF

/-- U+FFFD. -/
def replacement : ℕ := 0xFFFD

/-- A byte that begins a sequence: the code points it completes, and the state behind it. -/
def begin (byte : ℕ) : List ℕ × DecoderState :=
  if byte ≤ 0x7F then ([byte], {})
  else if 0xC2 ≤ byte ∧ byte ≤ 0xDF then ([], { codePoint := byte % 0x20, needed := 1 })
  else if 0xE0 ≤ byte ∧ byte ≤ 0xEF then
    ([], { codePoint := byte % 0x10, needed := 2,
           lower := if byte = 0xE0 then 0xA0 else 0x80,
           upper := if byte = 0xED then 0x9F else 0xBF })
  else if 0xF0 ≤ byte ∧ byte ≤ 0xF4 then
    ([], { codePoint := byte % 0x08, needed := 3,
           lower := if byte = 0xF0 then 0x90 else 0x80,
           upper := if byte = 0xF4 then 0x8F else 0xBF })
  else ([replacement], {})

def step (s : DecoderState) (byte : ℕ) : List ℕ × DecoderState :=
  if s.needed = 0 then begin byte
  else if byte < s.lower ∨ s.upper < byte then (replacement :: (begin byte).1, (begin byte).2)
  else
    let codePoint := s.codePoint * 0x40 + byte % 0x40
    if s.seen + 1 = s.needed then ([codePoint], {})
    else ([], { codePoint, seen := s.seen + 1, needed := s.needed })

/-- The code points of a byte sequence, from a given state on. -/
def codePoints : DecoderState → List ℕ → List ℕ
  | s, [] => if s.needed = 0 then [] else [replacement]
  | s, byte :: bytes => (step s byte).1 ++ codePoints (step s byte).2 bytes

/-- `new TextDecoder().decode(bytes)`. -/
def decode (bytes : List ℕ) : JSString :=
  match codePoints {} bytes with
  | 0xFEFF :: rest => JSString.ofCodePoints rest
  | all => JSString.ofCodePoints all

/-- `buffer.toString("utf-8")`, which keeps the mark. -/
def toString (bytes : List ℕ) : JSString := JSString.ofCodePoints (codePoints {} bytes)

/-! ## Decoding what was encoded -/

section Continuation

variable {codePoint seen lower upper byte : ℕ} (hlower : lower ≤ byte) (hupper : byte ≤ upper)

include hlower hupper

/-- A byte that ends a sequence, -/
theorem step_last : step ⟨codePoint, seen, seen + 1, lower, upper⟩ byte
    = ([codePoint * 0x40 + byte % 0x40], {}) := by
  rw [step, if_neg (Nat.succ_ne_zero seen), if_neg (by simp only; omega)]
  exact if_pos rfl

/-- …and one that goes on with it. -/
theorem step_more {needed : ℕ} (h : seen + 1 < needed) :
    step ⟨codePoint, seen, needed, lower, upper⟩ byte
      = ([], ⟨codePoint * 0x40 + byte % 0x40, seen + 1, needed, 0x80, 0xBF⟩) := by
  rw [step, if_neg (by simp only; omega), if_neg (by simp only; omega)]
  exact if_neg h.ne

end Continuation

theorem codePoints_cons (s : DecoderState) (byte : ℕ) (bytes : List ℕ) :
    codePoints s (byte :: bytes) = (step s byte).1 ++ codePoints (step s byte).2 bytes := rfl

theorem toNat_ofNat {n : ℕ} (h : n < 256) : (UInt8.ofNat n).toNat = n := by
  rw [UInt8.toNat_ofNat']
  exact Nat.mod_eq_of_lt h

section Characters

variable {v : ℕ} (rest : List ℕ)

theorem codePoints_two (h : 0x80 ≤ v) (h' : v ≤ 0x7FF) :
    codePoints {} ((v / 64 % 0x20 + 0xC0) :: (v % 0x40 + 0x80) :: rest) = v :: codePoints {} rest := by
  have hfirst : step {} (v / 64 % 0x20 + 0xC0) = ([], ⟨v / 64, 0, 0 + 1, 0x80, 0xBF⟩) := by
    rw [step, if_pos rfl, begin, if_neg (by omega), if_pos (by omega)]
    congr 2
    omega
  have hsecond : step ⟨v / 64, 0, 0 + 1, 0x80, 0xBF⟩ (v % 0x40 + 0x80) = _ :=
    step_last (by omega) (by omega)
  have hv : v / 64 * 0x40 + (v % 0x40 + 0x80) % 0x40 = v := by omega
  rw [codePoints_cons, hfirst, codePoints_cons, hsecond, hv]
  rfl

theorem codePoints_three (h : 0x800 ≤ v) (h' : v ≤ 0xFFFF) (hsurrogate : v < 0xD800 ∨ 0xE000 ≤ v) :
    codePoints {} ((v / 4096 % 0x10 + 0xE0) :: (v / 64 % 0x40 + 0x80) :: (v % 0x40 + 0x80) :: rest)
      = v :: codePoints {} rest := by
  let lower := if v / 4096 % 0x10 + 0xE0 = 0xE0 then 0xA0 else 0x80
  let upper := if v / 4096 % 0x10 + 0xE0 = 0xED then 0x9F else 0xBF
  have hlower : lower ≤ v / 64 % 0x40 + 0x80 := by
    simp only [lower]
    split <;> omega
  have hupper : v / 64 % 0x40 + 0x80 ≤ upper := by
    simp only [upper]
    split <;> omega
  have hfirst : step {} (v / 4096 % 0x10 + 0xE0) = ([], ⟨v / 4096, 0, 2, lower, upper⟩) := by
    rw [step, if_pos rfl, begin, if_neg (by omega), if_neg (by omega), if_pos (by omega)]
    congr 2
    omega
  have hsecond : step ⟨v / 4096, 0, 2, lower, upper⟩ (v / 64 % 0x40 + 0x80) = _ :=
    step_more hlower hupper (by decide)
  have hthird : step ⟨v / 4096 * 0x40 + (v / 64 % 0x40 + 0x80) % 0x40, 1, 1 + 1, 0x80, 0xBF⟩
      (v % 0x40 + 0x80) = _ := step_last (by omega) (by omega)
  have hv : (v / 4096 * 0x40 + (v / 64 % 0x40 + 0x80) % 0x40) * 0x40 + (v % 0x40 + 0x80) % 0x40
      = v := by omega
  rw [codePoints_cons, hfirst, codePoints_cons, hsecond, codePoints_cons, hthird, hv]
  rfl

theorem codePoints_four (h : 0x10000 ≤ v) (h' : v < 0x110000) :
    codePoints {} ((v / 262144 % 0x08 + 0xF0) :: (v / 4096 % 0x40 + 0x80) :: (v / 64 % 0x40 + 0x80)
      :: (v % 0x40 + 0x80) :: rest) = v :: codePoints {} rest := by
  let lower := if v / 262144 % 0x08 + 0xF0 = 0xF0 then 0x90 else 0x80
  let upper := if v / 262144 % 0x08 + 0xF0 = 0xF4 then 0x8F else 0xBF
  have hlower : lower ≤ v / 4096 % 0x40 + 0x80 := by
    simp only [lower]
    split <;> omega
  have hupper : v / 4096 % 0x40 + 0x80 ≤ upper := by
    simp only [upper]
    split <;> omega
  have hfirst : step {} (v / 262144 % 0x08 + 0xF0) = ([], ⟨v / 262144, 0, 3, lower, upper⟩) := by
    rw [step, if_pos rfl, begin, if_neg (by omega), if_neg (by omega), if_neg (by omega),
      if_pos (by omega)]
    congr 2
    omega
  have hsecond : step ⟨v / 262144, 0, 3, lower, upper⟩ (v / 4096 % 0x40 + 0x80) = _ :=
    step_more hlower hupper (by decide)
  have hthird : step ⟨v / 262144 * 0x40 + (v / 4096 % 0x40 + 0x80) % 0x40, 0 + 1, 3, 0x80, 0xBF⟩
      (v / 64 % 0x40 + 0x80) = _ := step_more (by omega) (by omega) (by decide)
  have hfourth : step ⟨(v / 262144 * 0x40 + (v / 4096 % 0x40 + 0x80) % 0x40) * 0x40
      + (v / 64 % 0x40 + 0x80) % 0x40, 2, 2 + 1, 0x80, 0xBF⟩ (v % 0x40 + 0x80) = _ :=
    step_last (by omega) (by omega)
  have hv : ((v / 262144 * 0x40 + (v / 4096 % 0x40 + 0x80) % 0x40) * 0x40
      + (v / 64 % 0x40 + 0x80) % 0x40) * 0x40 + (v % 0x40 + 0x80) % 0x40 = v := by omega
  rw [codePoints_cons, hfirst, codePoints_cons, hsecond, codePoints_cons, hthird, codePoints_cons,
    hfourth, hv]
  rfl

end Characters

/-- **One character is read from its bytes.** -/
theorem codePoints_utf8EncodeChar (c : Char) (rest : List ℕ) :
    codePoints {} ((String.utf8EncodeChar c).map UInt8.toNat ++ rest) = c.toNat :: codePoints {} rest := by
  have hc := toNat_not_surrogate c
  have hval : c.val.toNat = c.toNat := rfl
  rw [String.utf8EncodeChar]
  simp only [hval]
  generalize c.toNat = v at hc ⊢
  split
  · rename_i hone
    rw [map_singleton, toNat_ofNat (by omega), singleton_append, codePoints_cons, step,
      if_pos rfl, begin, if_pos hone]
    rfl
  split
  · rename_i hone htwo
    simp only [map_cons, map_nil, cons_append, nil_append]
    rw [toNat_ofNat (by omega), toNat_ofNat (by omega)]
    exact codePoints_two rest (by omega) htwo
  split
  · rename_i hone htwo hthree
    simp only [map_cons, map_nil, cons_append, nil_append]
    rw [toNat_ofNat (by omega), toNat_ofNat (by omega), toNat_ofNat (by omega)]
    exact codePoints_three rest (by omega) hthree (by omega)
  · simp only [map_cons, map_nil, cons_append, nil_append]
    rw [toNat_ofNat (by omega), toNat_ofNat (by omega), toNat_ofNat (by omega), toNat_ofNat (by omega)]
    exact codePoints_four rest (by omega) (by omega)

theorem codePoints_encode (chars : List Char) :
    codePoints {} ((chars.flatMap String.utf8EncodeChar).map UInt8.toNat) = chars.map Char.toNat := by
  induction chars with
  | nil => rfl
  | cons c chars ih =>
    rw [flatMap_cons, map_append, codePoints_utf8EncodeChar, ih, map_cons]

theorem toString_encode {s : JSString} (hs : IsWellFormed s) :
    toString ((encode s).map UInt8.toNat) = s := by
  obtain ⟨chars, rfl⟩ := hs
  rw [toString, encode, scalarValues_ofChars, codePoints_encode]
  rfl

/-- **What was encoded is decoded**, a byte order mark in front apart. -/
theorem decode_encode {s : JSString} (hs : IsWellFormed s)
    (hmark : s.units.head? ≠ some 0xFEFF) :
    decode ((encode s).map UInt8.toNat) = s := by
  obtain ⟨chars, rfl⟩ := hs
  rw [decode, encode, scalarValues_ofChars, codePoints_encode]
  split
  · rename_i rest heq
    cases chars with
    | nil => exact absurd heq.symm (cons_ne_nil _ _)
    | cons c chars =>
      obtain ⟨hc, -⟩ := List.cons.inj heq
      refine absurd ?_ hmark
      rw [units_ofChars_cons, hc]
      rfl
  · rfl

end Utf8
