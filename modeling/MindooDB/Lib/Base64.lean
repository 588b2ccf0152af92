import MindooDB.Lib.JSString

/-!
# Lib/Base64 — base64

`atob(data)`: white space is ignored and padding may be left out; `none` is an exception.
`Buffer.from(data, "base64")` passes over whatever is no digit and stops at `=`.  What `btoa` writes
both read back (`atob_btoa`, `ofBuffer_btoa`).
-/

namespace Base64

open List

/-- The value of a digit. -/
def digit? (unit : ℕ) : Option ℕ :=
  if 0x41 ≤ unit ∧ unit ≤ 0x5A then some (unit - 0x41)
  else if 0x61 ≤ unit ∧ unit ≤ 0x7A then some (unit - 0x61 + 26)
  else if 0x30 ≤ unit ∧ unit ≤ 0x39 then some (unit - 0x30 + 52)
  else if unit = 0x2B then some 62
  else if unit = 0x2F then some 63
  else none

def isWhiteSpace (unit : ℕ) : Bool := unit ∈ [0x09, 0x0A, 0x0C, 0x0D, 0x20]

/-- One or two `=` at the end of a sequence of whole groups of four are dropped. -/
def dropPadding (units : List ℕ) : List ℕ :=
  if units.length % 4 = 0 then
    match units.reverse with
    | 0x3D :: 0x3D :: rest => rest.reverse
    | 0x3D :: rest => rest.reverse
    | _ => units
  else units

/-- The bytes of some digits: four make three, and what is left over is cut off. -/
def bytesOf : List ℕ → List UInt8
  | a :: b :: c :: d :: rest =>
    UInt8.ofNat (a * 4 + b / 16) :: UInt8.ofNat (b * 16 + c / 4) :: UInt8.ofNat (c * 64 + d) ::
      bytesOf rest
  | [a, b, c] => [UInt8.ofNat (a * 4 + b / 16), UInt8.ofNat (b * 16 + c / 4)]
  | [a, b] => [UInt8.ofNat (a * 4 + b / 16)]
  | _ => []

/-- `atob(data)`, as the bytes that its characters are. -/
def atob (data : JSString) : Option (List UInt8) :=
  let units := dropPadding ((data.units.map Fin.val).filter fun unit => !isWhiteSpace unit)
  if units.length % 4 = 1 then none else (units.mapM digit?).map bytesOf

example : atob "AQID/w==" = some [1, 2, 3, 255] := by decide

/-- `Buffer.from(data, "base64")`, of a text without the digits of base64url. -/
def ofBuffer (data : JSString) : List UInt8 :=
  bytesOf (((data.units.map Fin.val).takeWhile (· ≠ 0x3D)).filterMap digit?)

example : ofBuffer "AQ.ID/w=AQ" = [1, 2, 3, 255] ∧ atob "AQ.ID/w" = none := by decide

/-! ## Encoding -/

/-- The digit of a value. -/
def digitUnit (n : ℕ) : Fin 65536 :=
  Fin.ofNat _ <|
    if n < 26 then 0x41 + n
    else if n < 52 then 0x61 + (n - 26)
    else if n < 62 then 0x30 + (n - 52)
    else if n = 62 then 0x2B
    else 0x2F

/-- Three bytes are four digits. -/
def digitsOf : List UInt8 → List ℕ
  | a :: b :: c :: rest =>
    a.toNat / 4 :: (a.toNat % 4 * 16 + b.toNat / 16) :: (b.toNat % 16 * 4 + c.toNat / 64) ::
      c.toNat % 64 :: digitsOf rest
  | [a, b] => [a.toNat / 4, a.toNat % 4 * 16 + b.toNat / 16, b.toNat % 16 * 4]
  | [a] => [a.toNat / 4, a.toNat % 4 * 16]
  | [] => []

/-- `btoa`, of the string whose characters are the bytes. -/
def btoa (bytes : List UInt8) : JSString :=
  ⟨(digitsOf bytes).map digitUnit ++ List.replicate ((3 - bytes.length % 3) % 3) 0x3D⟩

example : btoa [1, 2, 3, 255] = "AQID/w==" := by decide

theorem lt_of_mem_digitsOf (bytes : List UInt8) : ∀ n ∈ digitsOf bytes, n < 64 := by
  have hbyte : ∀ a : UInt8, a.toNat < 256 := UInt8.toNat_lt
  fun_induction digitsOf bytes with
  | case1 a b c rest ih =>
    have ha := hbyte a
    have hb := hbyte b
    have hc := hbyte c
    simp only [forall_mem_cons]
    exact ⟨by omega, by omega, by omega, by omega, ih⟩
  | case2 a b =>
    have ha := hbyte a
    have hb := hbyte b
    simp only [forall_mem_cons]
    exact ⟨by omega, by omega, by omega, nofun⟩
  | case3 a =>
    have ha := hbyte a
    simp only [forall_mem_cons]
    exact ⟨by omega, by omega, nofun⟩
  | case4 => exact nofun

theorem length_digitsOf (bytes : List UInt8) :
    ((digitsOf bytes).length + (3 - bytes.length % 3) % 3) % 4 = 0 := by
  fun_induction digitsOf bytes with
  | case1 a b c rest ih =>
    simp only [length_cons] at ih ⊢
    omega
  | case2 | case3 => simp
  | case4 => rfl

theorem length_digitsOf_ne_one (bytes : List UInt8) : (digitsOf bytes).length % 4 ≠ 1 := by
  have := length_digitsOf bytes
  omega

/-- The bytes come back from their digits. -/
theorem bytesOf_digitsOf (bytes : List UInt8) : bytesOf (digitsOf bytes) = bytes := by
  have hbyte : ∀ (a : UInt8) (n : ℕ), n % 256 = a.toNat → UInt8.ofNat n = a := fun a n h =>
    UInt8.toNat_inj.mp (UInt8.toNat_ofNat'.trans h)
  fun_induction digitsOf bytes with
  | case1 a b c rest ih =>
    have ha := a.toNat_lt
    have hb := b.toNat_lt
    have hc := c.toNat_lt
    rw [bytesOf, ih, hbyte a _ (by omega), hbyte b _ (by omega), hbyte c _ (by omega)]
  | case2 a b =>
    have ha := a.toNat_lt
    have hb := b.toNat_lt
    rw [bytesOf, hbyte a _ (by omega), hbyte b _ (by omega)]
  | case3 a =>
    have ha := a.toNat_lt
    rw [bytesOf, hbyte a _ (by omega)]
  | case4 => rfl

theorem digit?_digitUnit : ∀ n < 64, digit? (digitUnit n).val = some n := by decide

theorem digitUnit_ne : ∀ n < 64, (digitUnit n).val ≠ 0x3D ∧ isWhiteSpace (digitUnit n).val = false := by
  decide

theorem dropPadding_append {units : List ℕ} {k : ℕ} (hpad : 0x3D ∉ units) (hk : k ≤ 2)
    (hlength : (units.length + k) % 4 = 0) :
    dropPadding (units ++ List.replicate k 0x3D) = units := by
  have hlast : ∀ u rest, units.reverse = u :: rest → u ≠ 0x3D := fun u rest h => by
    rintro rfl
    exact hpad (mem_reverse.mp (h ▸ mem_cons_self))
  rw [dropPadding, if_pos (by simpa using hlength), reverse_append, reverse_replicate]
  obtain rfl | rfl | rfl : k = 0 ∨ k = 1 ∨ k = 2 := by omega
  · rcases hrev : units.reverse with _ | ⟨u, rest⟩
    · simp
    · have hu := hlast u rest hrev
      simp only [replicate_zero, nil_append, append_nil]
      split
      · rename_i heq
        exact absurd (List.cons.inj heq).1 hu
      · rename_i heq
        exact absurd (List.cons.inj heq).1 hu
      · rfl
  · rcases hrev : units.reverse with _ | ⟨u, rest⟩
    · rw [reverse_eq_nil_iff.mp hrev] at hlength
      exact nomatch hlength
    · have hu := hlast u rest hrev
      simp only [replicate_one, cons_append, nil_append]
      split
      · rename_i heq
        exact absurd (List.cons.inj (List.cons.inj heq).2).1 hu
      · rename_i heq
        rw [← (List.cons.inj heq).2, ← hrev, reverse_reverse]
      · rename_i hnot
        exact absurd rfl (hnot _)
  · simp only [replicate_succ, replicate_zero, cons_append, nil_append]
    exact reverse_reverse units

/-- **What `btoa` writes, `atob` reads back.** -/
theorem atob_btoa (bytes : List UInt8) : atob (btoa bytes) = some bytes := by
  have hdigits := lt_of_mem_digitsOf bytes
  have hunits : ((btoa bytes).units.map Fin.val).filter (fun unit => !isWhiteSpace unit)
      = (digitsOf bytes).map (fun n => (digitUnit n).val)
        ++ List.replicate ((3 - bytes.length % 3) % 3) 0x3D := by
    rw [btoa, map_append, map_map, map_replicate, filter_eq_self.mpr]
    · rfl
    · intro unit hunit
      rcases mem_append.mp hunit with hdigit | hpad
      · obtain ⟨n, hn, rfl⟩ := mem_map.mp hdigit
        rw [Function.comp_apply, (digitUnit_ne n (hdigits n hn)).2]
        rfl
      · rw [eq_of_mem_replicate hpad]
        rfl
  have hdrop : dropPadding ((digitsOf bytes).map (fun n => (digitUnit n).val)
      ++ List.replicate ((3 - bytes.length % 3) % 3) 0x3D)
      = (digitsOf bytes).map fun n => (digitUnit n).val := by
    refine dropPadding_append (fun hmem => ?_) (by omega) ?_
    · obtain ⟨n, hn, heq⟩ := mem_map.mp hmem
      exact (digitUnit_ne n (hdigits n hn)).1 heq
    · rw [length_map]
      exact length_digitsOf bytes
  have hmapM : ∀ digits : List ℕ, (∀ n ∈ digits, n < 64) →
      (digits.map fun n => (digitUnit n).val).mapM digit? = some digits := by
    intro digits h
    induction digits with
    | nil => rfl
    | cons n digits ih =>
      obtain ⟨hn, hrest⟩ := forall_mem_cons.mp h
      simp [digit?_digitUnit n hn, ih hrest]
  rw [atob, hunits, hdrop, length_map, if_neg (length_digitsOf_ne_one bytes), hmapM _ hdigits,
    Option.map_some, bytesOf_digitsOf]

/-- **…and so does `Buffer`.** -/
theorem ofBuffer_btoa (bytes : List UInt8) : ofBuffer (btoa bytes) = bytes := by
  have hdigits := lt_of_mem_digitsOf bytes
  have hdigit : ∀ n < 64, (digitUnit n).val ≠ 0x3D := by decide +kernel
  have hpadding : ∀ k, ((List.replicate k (0x3D : Fin 65536)).map Fin.val).takeWhile (· ≠ 0x3D)
      = [] := by
    intro k
    cases k <;> rfl
  have htaken : ((btoa bytes).units.map Fin.val).takeWhile (· ≠ 0x3D)
      = (digitsOf bytes).map fun n => (digitUnit n).val := by
    rw [btoa, map_append, map_map, takeWhile_append_of_pos, hpadding, append_nil]
    · rfl
    · intro unit hunit
      obtain ⟨n, hn, rfl⟩ := mem_map.mp hunit
      exact decide_eq_true (hdigit n (hdigits n hn))
  have hread : (digitsOf bytes).filterMap (fun n => digit? (digitUnit n).val) = digitsOf bytes := by
    rw [filterMap_congr fun n hn => digit?_digitUnit n (hdigits n hn)]
    exact filterMap_some
  rw [ofBuffer, htaken, filterMap_map]
  exact (congrArg bytesOf hread).trans (bytesOf_digitsOf bytes)

end Base64
