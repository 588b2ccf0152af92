import MindooDB.Lib.JSString

/-!
# Lib/TextEncoding — strings as UTF-8 bytes

`new TextEncoder().encode(s)`: surrogate pairs are joined, and a surrogate without its other half
becomes U+FFFD.  On strings of Unicode scalar values (`IsWellFormed`) nothing is lost
(`encode_injective`).
-/

namespace TextEncoding

open JSString List

/-- U+FFFD. -/
def replacementChar : Char := Char.ofNat 0xFFFD

/-- The scalar values of some code units. -/
def scalarValues : List (Fin 65536) → List Char
  | [] => []
  | unit :: rest =>
    if 0xD800 ≤ unit.val ∧ unit.val < 0xDC00 then
      match rest with
      | [] => [replacementChar]
      | low :: tail =>
        if 0xDC00 ≤ low.val ∧ low.val < 0xE000 then
          Char.ofNat (0x10000 + (unit.val - 0xD800) * 0x400 + (low.val - 0xDC00)) ::
            scalarValues tail
        else replacementChar :: scalarValues (low :: tail)
    else if 0xDC00 ≤ unit.val ∧ unit.val < 0xE000 then replacementChar :: scalarValues rest
    else Char.ofNat unit.val :: scalarValues rest

/-- `new TextEncoder().encode(s)`. -/
def encode (s : JSString) : List UInt8 := (scalarValues s.units).flatMap String.utf8EncodeChar

/-- The string of some scalar values. -/
def ofChars (chars : List Char) : JSString := ofCodePoints (chars.map Char.toNat)

/-- **A string of Unicode scalar values**: no surrogate lacks its other half. -/
def IsWellFormed (s : JSString) : Prop := ∃ chars, s = ofChars chars

/-- The string that some bytes encode. -/
def decode (bytes : List UInt8) : Option JSString :=
  bytes.toByteArray.utf8Decode?.map fun chars => ofChars chars.toList

theorem isWellFormed_ofChars (chars : List Char) : IsWellFormed (ofChars chars) := ⟨chars, rfl⟩

/-- What a literal denotes. -/
theorem isWellFormed_ofString (s : String) : IsWellFormed s := ⟨s.toList, rfl⟩

theorem units_ofChars_cons (c : Char) (chars : List Char) :
    (ofChars (c :: chars)).units = encodeUtf16 c.toNat ++ (ofChars chars).units := rfl

theorem ofChars_append (chars chars' : List Char) :
    ofChars (chars ++ chars') = ofChars chars ++ ofChars chars' := by
  refine units_injective ?_
  change ((chars ++ chars').map Char.toNat).flatMap encodeUtf16 = _
  rw [map_append, flatMap_append]
  rfl

variable {s : JSString} {unit : Fin 65536}

theorem IsWellFormed.append {t : JSString} (hs : IsWellFormed s) (ht : IsWellFormed t) :
    IsWellFormed (s ++ t) := by
  obtain ⟨chars, rfl⟩ := hs
  obtain ⟨chars', rfl⟩ := ht
  exact ⟨chars ++ chars', (ofChars_append chars chars').symm⟩

theorem toNat_ofNat {n : ℕ} (h : n.isValidChar) : (Char.ofNat n).toNat = n := by
  rw [Char.ofNat, dif_pos h]
  rfl

theorem isWellFormed_nil : IsWellFormed ⟨[]⟩ := ⟨[], rfl⟩

/-- A code unit that is no surrogate. -/
theorem isWellFormed_unit (h : unit.val < 0xD800 ∨ 0xE000 ≤ unit.val) :
    IsWellFormed ⟨[unit]⟩ := by
  refine ⟨[Char.ofNat unit.val], units_injective ?_⟩
  have hlt := unit.isLt
  have hvalid : unit.val.isValidChar := by
    rcases h with h | h
    · exact .inl h
    · exact .inr ⟨by omega, by omega⟩
  rw [units_ofChars_cons, toNat_ofNat hvalid, encodeUtf16, if_pos hlt]
  exact congrArg (· :: []) (Fin.ext (Nat.mod_eq_of_lt hlt).symm)

/-- Two surrogates that belong together. -/
theorem isWellFormed_pair {low : Fin 65536} (h : 0xD800 ≤ unit.val ∧ unit.val < 0xDC00)
    (hlow : 0xDC00 ≤ low.val ∧ low.val < 0xE000) : IsWellFormed ⟨[unit, low]⟩ := by
  let n := 0x10000 + (unit.val - 0xD800) * 0x400 + (low.val - 0xDC00)
  refine ⟨[Char.ofNat n], units_injective ?_⟩
  have hn : n.isValidChar := .inr ⟨by omega, by omega⟩
  have hhigh : 0xD800 + (n - 0x10000) / 0x400 = unit.val := by omega
  have hrest : 0xDC00 + (n - 0x10000) % 0x400 = low.val := by omega
  rw [units_ofChars_cons, toNat_ofNat hn, encodeUtf16, if_neg (by omega), hhigh, hrest]
  have hval : ∀ u : Fin 65536, Fin.ofNat 65536 u.val = u := fun u =>
    Fin.ext (Nat.mod_eq_of_lt u.isLt)
  rw [hval, hval]
  rfl

theorem isWellFormed_of_forall {units : List (Fin 65536)}
    (h : ∀ unit ∈ units, unit.val < 0xD800 ∨ 0xE000 ≤ unit.val) : IsWellFormed ⟨units⟩ := by
  induction units with
  | nil => exact isWellFormed_nil
  | cons unit units ih =>
    obtain ⟨hunit, hunits⟩ := forall_mem_cons.mp h
    exact (isWellFormed_unit hunit).append (ih hunits)

/-- A scalar value is no surrogate. -/
theorem toNat_not_surrogate (c : Char) : c.toNat < 0xD800 ∨ 0xE000 ≤ c.toNat ∧ c.toNat < 0x110000 := by
  rcases c.valid with h | ⟨h, h'⟩
  · exact .inl h
  · exact .inr ⟨h, h'⟩

theorem scalarValues_unit (h : unit.val < 0xD800 ∨ 0xE000 ≤ unit.val) (rest : List (Fin 65536)) :
    scalarValues (unit :: rest) = Char.ofNat unit.val :: scalarValues rest := by
  rw [scalarValues.eq_def]
  exact (if_neg (by omega)).trans (if_neg (by omega))

theorem scalarValues_pair {unit low : Fin 65536} (h : 0xD800 ≤ unit.val ∧ unit.val < 0xDC00)
    (hlow : 0xDC00 ≤ low.val ∧ low.val < 0xE000) (rest : List (Fin 65536)) :
    scalarValues (unit :: low :: rest) =
      Char.ofNat (0x10000 + (unit.val - 0xD800) * 0x400 + (low.val - 0xDC00)) ::
        scalarValues rest := by
  rw [scalarValues.eq_def]
  exact (if_pos h).trans (if_pos hlow)

/-- **Reading the code units of scalar values gives them back.** -/
theorem scalarValues_encodeUtf16 (c : Char) (rest : List (Fin 65536)) :
    scalarValues (encodeUtf16 c.toNat ++ rest) = c :: scalarValues rest := by
  have hc := toNat_not_surrogate c
  by_cases hsmall : c.toNat < 0x10000
  · have hval : (Fin.ofNat 65536 c.toNat).val = c.toNat := Nat.mod_eq_of_lt hsmall
    rw [encodeUtf16, if_pos hsmall, singleton_append,
      scalarValues_unit (by omega), hval, Char.ofNat_toNat]
  · have hhigh : (Fin.ofNat 65536 (0xD800 + (c.toNat - 0x10000) / 0x400)).val
        = 0xD800 + (c.toNat - 0x10000) / 0x400 := Nat.mod_eq_of_lt (by omega)
    have hlow : (Fin.ofNat 65536 (0xDC00 + (c.toNat - 0x10000) % 0x400)).val
        = 0xDC00 + (c.toNat - 0x10000) % 0x400 := Nat.mod_eq_of_lt (by omega)
    have hjoin : 0x10000 + (0xD800 + (c.toNat - 0x10000) / 0x400 - 0xD800) * 0x400
        + (0xDC00 + (c.toNat - 0x10000) % 0x400 - 0xDC00) = c.toNat := by omega
    rw [encodeUtf16, if_neg hsmall, cons_append, singleton_append,
      scalarValues_pair (by omega) (by omega), hhigh, hlow, hjoin, Char.ofNat_toNat]

@[simp] theorem scalarValues_ofChars (chars : List Char) :
    scalarValues (ofChars chars).units = chars := by
  induction chars with
  | nil => rfl
  | cons c chars ih => rw [units_ofChars_cons, scalarValues_encodeUtf16, ih]

/-- `s.toWellFormed()`. -/
def toWellFormed (s : JSString) : JSString := ofChars (scalarValues s.units)

theorem isWellFormed_toWellFormed (s : JSString) : IsWellFormed (toWellFormed s) := ⟨_, rfl⟩

@[simp] theorem encode_toWellFormed (s : JSString) : encode (toWellFormed s) = encode s := by
  rw [encode, toWellFormed, scalarValues_ofChars, encode]

instance : DecidablePred IsWellFormed := fun s =>
  decidable_of_iff (ofChars (scalarValues s.units) = s)
    ⟨fun h => ⟨_, h.symm⟩, by rintro ⟨chars, rfl⟩; rw [scalarValues_ofChars]⟩

theorem toByteArray_encode (s : JSString) :
    (encode s).toByteArray = (scalarValues s.units).utf8Encode := rfl

/-- **What was encoded decodes to itself.** -/
theorem decode_encode (hs : IsWellFormed s) : decode (encode s) = some s := by
  obtain ⟨chars, rfl⟩ := hs
  rw [decode, toByteArray_encode, scalarValues_ofChars, utf8Decode?_utf8Encode]
  rfl

theorem encode_injective {t : JSString} (hs : IsWellFormed s) (ht : IsWellFormed t)
    (h : encode s = encode t) : s = t := by
  have hdecode := decode_encode hs
  rw [h, decode_encode ht] at hdecode
  exact (Option.some.inj hdecode).symm

/-- What decodes was encoded from it. -/
theorem encode_of_decode {bytes : List UInt8} (h : decode bytes = some s) :
    IsWellFormed s ∧ encode s = bytes := by
  obtain ⟨chars, hchars, rfl⟩ := Option.map_eq_some_iff.mp h
  refine ⟨isWellFormed_ofChars _, ?_⟩
  have hsome : bytes.toByteArray.utf8Decode?.isSome := by rw [hchars]; rfl
  have hback := ByteArray.utf8Encode_get_utf8Decode? (b := bytes.toByteArray) (h := hsome)
  have hget : bytes.toByteArray.utf8Decode?.get hsome = chars := by
    simp [hchars]
  rw [hget, ← scalarValues_ofChars chars.toList, ← toByteArray_encode] at hback
  simpa using congrArg (fun b => b.data.toList) hback

end TextEncoding
