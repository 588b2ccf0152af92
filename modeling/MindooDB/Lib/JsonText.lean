import MindooDB.Lib.TextEncoding

/-!
# Lib/JsonText — strings in JSON

`JSON.stringify(s)`: quotes, backslashes and control characters are escaped, and so is a surrogate
without its other half.  What is written is a string of Unicode scalar values.
-/

namespace JsonText

/-- A hexadecimal digit. -/
def hexDigit (n : ℕ) : Fin 65536 := Fin.ofNat _ (if n < 10 then 0x30 + n else 0x57 + n)

/-- `\uXXXX`. -/
def unicodeEscape (unit : ℕ) : List (Fin 65536) :=
  [0x5C, 0x75, hexDigit (unit / 0x1000 % 16), hexDigit (unit / 0x100 % 16),
    hexDigit (unit / 0x10 % 16), hexDigit (unit % 16)]

/-- A code unit that is no surrogate. -/
def escapeUnit (unit : Fin 65536) : List (Fin 65536) :=
  if unit.val = 0x08 then [0x5C, 0x62]
  else if unit.val = 0x09 then [0x5C, 0x74]
  else if unit.val = 0x0A then [0x5C, 0x6E]
  else if unit.val = 0x0C then [0x5C, 0x66]
  else if unit.val = 0x0D then [0x5C, 0x72]
  else if unit.val = 0x22 then [0x5C, 0x22]
  else if unit.val = 0x5C then [0x5C, 0x5C]
  else if unit.val < 0x20 then unicodeEscape unit.val
  else [unit]

/-- What stands between the quotes. -/
def escape : List (Fin 65536) → List (Fin 65536)
  | [] => []
  | unit :: rest =>
    if 0xD800 ≤ unit.val ∧ unit.val < 0xDC00 then
      match rest with
      | [] => unicodeEscape unit.val
      | low :: tail =>
        if 0xDC00 ≤ low.val ∧ low.val < 0xE000 then unit :: low :: escape tail
        else unicodeEscape unit.val ++ escape (low :: tail)
    else if 0xDC00 ≤ unit.val ∧ unit.val < 0xE000 then unicodeEscape unit.val ++ escape rest
    else escapeUnit unit ++ escape rest

/-- `JSON.stringify(s)`. -/
def quote (s : JSString) : JSString := ⟨0x22 :: escape s.units ++ [0x22]⟩

/-- `JSON.stringify(n)`, of an integer. -/
def integer (n : ℤ) : JSString :=
  if n < 0 then ("-" : JSString) ++ JSString.ofNat n.natAbs else JSString.ofNat n.natAbs

/-- A member of an object. -/
def member (name : String) (value : JSString) : JSString := quote name ++ (":" : JSString) ++ value

def object (members : List JSString) : JSString :=
  ("\x7b" : JSString) ++ JSString.join "," members ++ ("\x7d" : JSString)

def array (items : List JSString) : JSString :=
  ("[" : JSString) ++ JSString.join "," items ++ ("]" : JSString)

/-! ## What is written is well formed -/

open TextEncoding

theorem isWellFormed_unicodeEscape (unit : ℕ) : IsWellFormed ⟨unicodeEscape unit⟩ := by
  have hdigit : ∀ n, n < 16 → (hexDigit n).val < 0xD800 := by decide
  refine isWellFormed_of_forall fun u hu => .inl ?_
  simp only [unicodeEscape, List.mem_cons, List.not_mem_nil, or_false] at hu
  rcases hu with rfl | rfl | rfl | rfl | rfl | rfl
  · decide
  · decide
  all_goals exact hdigit _ (Nat.mod_lt _ (by decide))

theorem isWellFormed_escaped {unit : Fin 65536} (h : unit.val < 0xD800) :
    IsWellFormed ⟨[0x5C, unit]⟩ :=
  (isWellFormed_unit (Or.inl (by decide : (0x5C : Fin 65536).val < 0xD800))).append
    (isWellFormed_unit (Or.inl h))

theorem isWellFormed_escapeUnit {unit : Fin 65536} (h : unit.val < 0xD800 ∨ 0xE000 ≤ unit.val) :
    IsWellFormed ⟨escapeUnit unit⟩ := by
  rw [escapeUnit]
  split_ifs
  iterate 7 exact isWellFormed_escaped (by decide)
  · exact isWellFormed_unicodeEscape unit.val
  · exact isWellFormed_unit h

/-- **A surrogate without its other half is escaped.** -/
theorem isWellFormed_escape (units : List (Fin 65536)) : IsWellFormed ⟨escape units⟩ := by
  fun_induction escape units with
  | case1 => exact isWellFormed_nil
  | case2 unit _ => exact isWellFormed_unicodeEscape unit.val
  | case3 unit h low tail hlow ih => exact (isWellFormed_pair h hlow).append ih
  | case4 unit _ low tail _ ih | case5 unit rest _ _ ih =>
    exact (isWellFormed_unicodeEscape unit.val).append ih
  | case6 unit rest h hlow ih => exact (isWellFormed_escapeUnit (by omega)).append ih

theorem isWellFormed_quote (s : JSString) : IsWellFormed (quote s) := by
  have hquote : IsWellFormed ⟨[0x22]⟩ := isWellFormed_unit (.inl (by decide))
  exact (hquote.append (isWellFormed_escape s.units)).append hquote

theorem isWellFormed_ofNat (n : ℕ) : IsWellFormed (JSString.ofNat n) := ⟨Nat.toDigits 10 n, rfl⟩

theorem isWellFormed_integer (n : ℤ) : IsWellFormed (integer n) := by
  rw [integer]
  split_ifs
  · exact (isWellFormed_ofString "-").append (isWellFormed_ofNat _)
  · exact isWellFormed_ofNat _

theorem isWellFormed_member (name : String) {value : JSString} (h : IsWellFormed value) :
    IsWellFormed (member name value) :=
  ((isWellFormed_quote name).append (isWellFormed_ofString ":")).append h

theorem isWellFormed_join {parts : List JSString} (h : ∀ part ∈ parts, IsWellFormed part) :
    IsWellFormed (JSString.join "," parts) := by
  have hrest : ∀ {parts : List JSString}, (∀ part ∈ parts, IsWellFormed part) →
      IsWellFormed ⟨parts.flatMap fun p => (("," : JSString) ++ p).units⟩ := by
    intro parts h
    induction parts with
    | nil => exact isWellFormed_nil
    | cons part parts ih =>
      obtain ⟨hpart, hparts⟩ := List.forall_mem_cons.mp h
      exact ((isWellFormed_ofString ",").append hpart).append (ih hparts)
  cases parts with
  | nil => exact isWellFormed_nil
  | cons part parts =>
    obtain ⟨hpart, hparts⟩ := List.forall_mem_cons.mp h
    exact hpart.append (hrest hparts)

theorem isWellFormed_object {members : List JSString} (h : ∀ m ∈ members, IsWellFormed m) :
    IsWellFormed (object members) :=
  ((isWellFormed_ofString "\x7b").append (isWellFormed_join h)).append (isWellFormed_ofString "\x7d")

theorem isWellFormed_array {items : List JSString} (h : ∀ item ∈ items, IsWellFormed item) :
    IsWellFormed (array items) :=
  ((isWellFormed_ofString "[").append (isWellFormed_join h)).append (isWellFormed_ofString "]")

end JsonText
