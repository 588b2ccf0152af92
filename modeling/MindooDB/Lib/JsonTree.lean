import MindooDB.Lib.JsonText

/-!
# Lib/JsonTree — JSON texts and what they are read as

`JSON.stringify` and `JSON.parse` of values whose numbers are integers.  A text with a fraction or an
exponent is not read.  Members that are named twice both stay; the last one is the one that counts
(`field`).

What is written is read back (`parse_stringify`), and is a string of Unicode scalar values.
-/

/-- **A JSON value.** -/
inductive JsonTree where
  | null
  | bool (b : Bool)
  | integer (n : ℤ)
  | string (s : JSString)
  | array (items : List JsonTree)
  | object (members : List (JSString × JsonTree))

namespace JsonTree

open JSString JsonText List Option

/-- `data.name`. -/
def field (members : List (JSString × JsonTree)) (name : JSString) : Option JsonTree :=
  members.reverse.lookup name

/-! ## Writing -/

mutual

/-- `JSON.stringify(value)`. -/
def stringify : JsonTree → JSString
  | null => "null"
  | bool true => "true"
  | bool false => "false"
  | integer n => JsonText.integer n
  | string s => JsonText.quote s
  | array items => JsonText.array (stringifyItems items)
  | object members => JsonText.object (stringifyMembers members)

def stringifyItems : List JsonTree → List JSString
  | [] => []
  | item :: items => stringify item :: stringifyItems items

def stringifyMembers : List (JSString × JsonTree) → List JSString
  | [] => []
  | (name, value) :: members =>
    (JsonText.quote name ++ (":" : JSString) ++ stringify value) :: stringifyMembers members

end

/-! ## Reading -/

def isWs (unit : Fin 65536) : Bool := unit.val ∈ [0x20, 0x09, 0x0A, 0x0D]

def skipWs (units : List (Fin 65536)) : List (Fin 65536) := units.dropWhile isWs

def hexValue (unit : Fin 65536) : Option ℕ :=
  if 0x30 ≤ unit.val ∧ unit.val ≤ 0x39 then some (unit.val - 0x30)
  else if 0x41 ≤ unit.val ∧ unit.val ≤ 0x46 then some (unit.val - 0x37)
  else if 0x61 ≤ unit.val ∧ unit.val ≤ 0x66 then some (unit.val - 0x57)
  else none

/-- The unit of `\uabcd`. -/
def hexUnit (a b c d : Fin 65536) : Option (Fin 65536) := do
  let a ← hexValue a
  let b ← hexValue b
  let c ← hexValue c
  let d ← hexValue d
  some (Fin.ofNat _ (a * 0x1000 + b * 0x100 + c * 0x10 + d))

/-- What a letter after a backslash stands for. -/
def unescape (unit : Fin 65536) : Option (Fin 65536) :=
  if unit.val ∈ [0x22, 0x5C, 0x2F] then some unit
  else if unit.val = 0x62 then some 0x08
  else if unit.val = 0x66 then some 0x0C
  else if unit.val = 0x6E then some 0x0A
  else if unit.val = 0x72 then some 0x0D
  else if unit.val = 0x74 then some 0x09
  else none

/-- The rest of a string, and what stands behind it. -/
def readString : List (Fin 65536) → Option (List (Fin 65536) × List (Fin 65536))
  | [] => none
  | unit :: rest =>
    if unit.val = 0x22 then some ([], rest)
    else if unit.val = 0x5C then
      match rest with
      | [] => none
      | letter :: rest =>
        if letter.val = 0x75 then
          match rest with
          | a :: b :: c :: d :: rest =>
            (hexUnit a b c d).bind fun unit =>
              (readString rest).map fun (units, rest) => (unit :: units, rest)
          | _ => none
        else
          (unescape letter).bind fun unit =>
            (readString rest).map fun (units, rest) => (unit :: units, rest)
    else if unit.val < 0x20 then none
    else (readString rest).map fun (units, rest) => (unit :: units, rest)
termination_by structural units => units

def isDigit (unit : Fin 65536) : Bool := 0x30 ≤ unit.val && unit.val ≤ 0x39

def digitsValue (digits : List (Fin 65536)) : ℕ :=
  digits.foldl (fun n digit => n * 10 + (digit.val - 0x30)) 0

/-- Digits without a leading zero, and no fraction or exponent behind them. -/
def readNatural (units : List (Fin 65536)) : Option (ℕ × List (Fin 65536)) :=
  let digits := units.takeWhile isDigit
  let rest := units.dropWhile isDigit
  if digits.isEmpty || digits.length > 1 && digits.head? = some 0x30
      || rest.head?.any fun unit => unit.val ∈ [0x2E, 0x45, 0x65] then none
  else some (digitsValue digits, rest)

def readInteger (units : List (Fin 65536)) : Option (ℤ × List (Fin 65536)) :=
  match units with
  | [] => none
  | unit :: rest =>
    if unit.val = 0x2D then (readNatural rest).map fun (n, rest) => (-(n : ℤ), rest)
    else (readNatural units).map fun (n, rest) => ((n : ℤ), rest)

/-- What stands behind a word. -/
def readWord (word : JSString) (units : List (Fin 65536)) : Option (List (Fin 65536)) :=
  if word.units.isPrefixOf units then some (units.drop word.units.length) else none

/-- What stands behind a mark. -/
def readMark (mark : Fin 65536) (units : List (Fin 65536)) : Option (List (Fin 65536)) :=
  match skipWs units with
  | [] => none
  | unit :: rest => if unit = mark then some rest else none

mutual

/-- The first value of a text, and what stands behind it. -/
def readValue : ℕ → List (Fin 65536) → Option (JsonTree × List (Fin 65536))
  | 0, _ => none
  | fuel + 1, units =>
    let units := skipWs units
    match units with
    | [] => none
    | unit :: rest =>
      if unit.val = 0x22 then (readString rest).map fun (s, rest) => (string ⟨s⟩, rest)
      else if unit.val = 0x5B then
        match readMark 0x5D rest with
        | some rest => some (array [], rest)
        | none => (readItems fuel rest).map fun (items, rest) => (array items, rest)
      else if unit.val = 0x7B then
        match readMark 0x7D rest with
        | some rest => some (object [], rest)
        | none => (readMembers fuel rest).map fun (members, rest) => (object members, rest)
      else if unit.val = 0x6E then (readWord "null" units).map fun rest => (null, rest)
      else if unit.val = 0x74 then (readWord "true" units).map fun rest => (bool true, rest)
      else if unit.val = 0x66 then (readWord "false" units).map fun rest => (bool false, rest)
      else (readInteger units).map fun (n, rest) => (integer n, rest)

def readItems : ℕ → List (Fin 65536) → Option (List JsonTree × List (Fin 65536))
  | 0, _ => none
  | fuel + 1, units =>
    (readValue fuel units).bind fun (item, rest) =>
      match readMark 0x2C rest with
      | some rest => (readItems fuel rest).map fun (items, rest) => (item :: items, rest)
      | none => (readMark 0x5D rest).map fun rest => ([item], rest)

def readMembers : ℕ → List (Fin 65536) → Option (List (JSString × JsonTree) × List (Fin 65536))
  | 0, _ => none
  | fuel + 1, units =>
    (readMark 0x22 units).bind fun rest =>
    (readString rest).bind fun (name, rest) =>
    (readMark 0x3A rest).bind fun rest =>
    (readValue fuel rest).bind fun (value, rest) =>
      match readMark 0x2C rest with
      | some rest => (readMembers fuel rest).map fun (members, rest) => ((⟨name⟩, value) :: members, rest)
      | none => (readMark 0x7D rest).map fun rest => ([(⟨name⟩, value)], rest)

end

/-- `JSON.parse(text)`; `none` is an exception. -/
def parse (text : JSString) : Option JsonTree :=
  (readValue (text.units.length + 1) text.units).bind fun (value, rest) =>
    if (skipWs rest).isEmpty then some value else none

/-! ## Strings -/

variable {unit : Fin 65536}

theorem readString_raw (hquote : unit.val ≠ 0x22) (hslash : unit.val ≠ 0x5C)
    (hcontrol : ¬unit.val < 0x20) (rest : List (Fin 65536)) :
    readString (unit :: rest) = (readString rest).map fun (units, rest) => (unit :: units, rest) := by
  rw [readString.eq_def]
  simp only [if_neg hquote, if_neg hslash, if_neg hcontrol]

theorem readString_quote (rest : List (Fin 65536)) : readString (0x22 :: rest) = some ([], rest) := by
  rw [readString.eq_def]
  rfl

theorem readString_letter {letter : Fin 65536} (hletter : letter.val ≠ 0x75)
    (h : unescape letter = some unit) (rest : List (Fin 65536)) :
    readString (0x5C :: letter :: rest)
      = (readString rest).map fun (units, rest) => (unit :: units, rest) := by
  have hslash : ((0x5C : Fin 65536).val = 0x22) = False ∧ ((0x5C : Fin 65536).val = 0x5C) = True := by
    decide
  rw [readString.eq_def]
  simp only [hslash.1, hslash.2, if_neg hletter, h, bind_some, if_true, if_false]

theorem hexValue_hexDigit : ∀ n < 16, hexValue (hexDigit n) = some n := by decide

theorem readString_unicodeEscape (unit : Fin 65536) (rest : List (Fin 65536)) :
    readString (unicodeEscape unit.val ++ rest)
      = (readString rest).map fun (units, rest) => (unit :: units, rest) := by
  have hdigit : ∀ n, hexValue (hexDigit (n % 16)) = some (n % 16) :=
    fun n => hexValue_hexDigit _ (Nat.mod_lt _ (by decide))
  have hunit : Fin.ofNat 65536 (unit.val / 0x1000 % 16 * 0x1000 + unit.val / 0x100 % 16 * 0x100
      + unit.val / 0x10 % 16 * 0x10 + unit.val % 16) = unit := by
    apply Fin.ext
    have hlt := unit.isLt
    rw [Fin.val_ofNat]
    omega
  have hslash : ((0x5C : Fin 65536).val = 0x22) = False ∧ ((0x5C : Fin 65536).val = 0x5C) = True
      ∧ ((0x75 : Fin 65536).val = 0x75) = True := by decide
  rw [unicodeEscape, readString.eq_def]
  simp only [cons_append, nil_append, hslash.1, hslash.2.1, hslash.2.2, if_true, if_false,
    hexUnit, hdigit, bind_eq_bind, bind_some, hunit]

theorem readString_escapeUnit (unit : Fin 65536) (rest : List (Fin 65536)) :
    readString (escapeUnit unit ++ rest)
      = (readString rest).map fun (units, rest) => (unit :: units, rest) := by
  rw [escapeUnit]
  split_ifs with h08 h09 h0A h0C h0D h22 h5C hcontrol
  · exact readString_letter (by decide) (by rw [show unit = 0x08 from Fin.ext h08]; decide) rest
  · exact readString_letter (by decide) (by rw [show unit = 0x09 from Fin.ext h09]; decide) rest
  · exact readString_letter (by decide) (by rw [show unit = 0x0A from Fin.ext h0A]; decide) rest
  · exact readString_letter (by decide) (by rw [show unit = 0x0C from Fin.ext h0C]; decide) rest
  · exact readString_letter (by decide) (by rw [show unit = 0x0D from Fin.ext h0D]; decide) rest
  · exact readString_letter (by decide) (by rw [show unit = 0x22 from Fin.ext h22]; decide) rest
  · exact readString_letter (by decide) (by rw [show unit = 0x5C from Fin.ext h5C]; decide) rest
  · exact readString_unicodeEscape unit rest
  · exact readString_raw h22 h5C hcontrol rest

/-- **What stands between the quotes is read back.** -/
theorem readString_escape (units rest : List (Fin 65536)) :
    readString (escape units ++ 0x22 :: rest) = some (units, rest) := by
  fun_induction escape units with
  | case1 => exact readString_quote rest
  | case2 unit _ => rw [readString_unicodeEscape, readString_quote]; rfl
  | case3 unit h low tail hlow ih =>
    rw [cons_append, cons_append, readString_raw (by omega) (by omega) (by omega),
      readString_raw (by omega) (by omega) (by omega), ih]
    rfl
  | case4 unit _ low tail _ ih | case5 unit tail _ _ ih =>
    rw [List.append_assoc, readString_unicodeEscape, ih]; rfl
  | case6 unit tail _ _ ih => rw [List.append_assoc, readString_escapeUnit, ih]; rfl

/-! ## Numbers -/

/-- What follows a number. -/
def Stops (rest : List (Fin 65536)) : Prop :=
  ∀ unit ∈ rest.head?, isDigit unit = false ∧ unit.val ∉ [0x2E, 0x45, 0x65]

theorem units_ofNat_of_lt : ∀ n < 10, (ofNat n).units = [Fin.ofNat _ (0x30 + n)] := by decide

theorem units_ofNat_of_le {n : ℕ} (h : 10 ≤ n) : (ofNat n).units
    = (ofNat (n / 10)).units ++ [Fin.ofNat _ (0x30 + n % 10)] := by
  have hdigit : ∀ d < 10, encodeUtf16 (Nat.digitChar d).toNat = [Fin.ofNat _ (0x30 + d)] := by
    decide
  simp only [ofNat, ofCodePoints, Nat.toDigits_of_base_le (by decide) h,
    map_append, flatMap_append, map_cons, map_nil, flatMap_cons,
    flatMap_nil, append_nil, hdigit _ (Nat.mod_lt n (by decide))]

theorem digit_spec : ∀ d < 10, (0 < d → Fin.ofNat 65536 (0x30 + d) ≠ 0x30)
    ∧ digitsValue [Fin.ofNat _ (0x30 + d)] = d := by decide

theorem isDigit_ofNat : ∀ d < 10, isDigit (Fin.ofNat _ (0x30 + d)) = true := by decide

/-- **The digits of a number**: there are some, no zero leads a longer list, and they are its value. -/
theorem digits_spec (n : ℕ) : (∀ unit ∈ (ofNat n).units, isDigit unit = true)
    ∧ (ofNat n).units ≠ [] ∧ (0 < n → (ofNat n).units.head? ≠ some 0x30)
    ∧ digitsValue (ofNat n).units = n := by
  induction n using Nat.strong_induction_on with
  | _ n ih =>
    rcases Nat.lt_or_ge n 10 with hlt | hle
    · rw [units_ofNat_of_lt n hlt]
      refine ⟨fun unit hunit => ?_, cons_ne_nil _ _, ?_, ?_⟩
      · rw [mem_singleton.mp hunit]
        exact isDigit_ofNat n hlt
      · exact fun hpos heq => (digit_spec n hlt).1 hpos (some.inj heq)
      · exact (digit_spec n hlt).2
    · obtain ⟨hdigits, hne, hhead, hvalue⟩ := ih (n / 10) (by omega)
      rw [units_ofNat_of_le hle]
      refine ⟨fun unit hunit => ?_, by simp, fun _ => ?_, ?_⟩
      · rcases mem_append.mp hunit with hunit | hunit
        · exact hdigits unit hunit
        · rw [mem_singleton.mp hunit]
          exact isDigit_ofNat _ (Nat.mod_lt n (by decide))
      · rw [head?_append_of_ne_nil _ hne]
        exact hhead (by omega)
      · have hlast : ∀ d < 10, (Fin.ofNat 65536 (0x30 + d)).val - 0x30 = d := by decide
        rw [digitsValue, foldl_append, foldl_cons, foldl_nil, ← digitsValue, hvalue,
          hlast _ (Nat.mod_lt n (by decide))]
        omega

theorem readNatural_ofNat (n : ℕ) {rest : List (Fin 65536)} (hrest : Stops rest) :
    readNatural ((ofNat n).units ++ rest) = some (n, rest) := by
  obtain ⟨hdigits, hne, hhead, hvalue⟩ := digits_spec n
  have hnot : rest.takeWhile isDigit = [] ∧ rest.dropWhile isDigit = rest := by
    cases rest with
    | nil => exact ⟨rfl, rfl⟩
    | cons unit rest =>
      have hunit := (hrest unit rfl).1
      exact ⟨by rw [takeWhile_cons_of_neg (by simp [hunit])],
        by rw [dropWhile_cons_of_neg (by simp [hunit])]⟩
  have hzero : (decide ((ofNat n).units.length > 1)
      && decide ((ofNat n).units.head? = some 0x30)) = false := by
    rw [Bool.and_eq_false_iff, decide_eq_false_iff_not, decide_eq_false_iff_not]
    rcases Nat.eq_zero_or_pos n with rfl | hpos
    · exact .inl (by decide)
    · exact .inr (hhead hpos)
  have hstop : (rest.head?.any fun unit => unit.val ∈ [0x2E, 0x45, 0x65]) = false := by
    cases hunit : rest.head? with
    | none => rfl
    | some unit => simpa using (hrest unit hunit).2
  rw [readNatural, takeWhile_append_of_pos hdigits, dropWhile_append_of_pos hdigits, hnot.1,
    hnot.2, append_nil]
  simp only [hvalue, List.isEmpty_eq_false_iff.mpr hne, hzero, hstop, Bool.false_or, Bool.false_eq_true,
    if_false]

theorem readInteger_integer (n : ℤ) {rest : List (Fin 65536)} (hrest : Stops rest) :
    readInteger ((JsonText.integer n).units ++ rest) = some (n, rest) := by
  have hread := readNatural_ofNat n.natAbs hrest
  rw [JsonText.integer]
  split
  · rename_i hneg
    rw [show ((("-" : JSString) ++ ofNat n.natAbs).units ++ rest)
      = 0x2D :: ((ofNat n.natAbs).units ++ rest) from rfl, readInteger, if_pos (by decide), hread]
    simp only [map_some]
    rw [Int.ofNat_natAbs_of_nonpos (by omega), Int.neg_neg]
  · rename_i hnonneg
    obtain ⟨hdigits, hne, -, -⟩ := digits_spec n.natAbs
    obtain ⟨unit, units, heq⟩ := exists_cons_of_ne_nil hne
    have hunit := hdigits unit (heq ▸ mem_cons_self)
    rw [heq, cons_append] at hread ⊢
    rw [readInteger, if_neg (fun h => by rw [isDigit, h] at hunit; cases hunit), hread]
    simp only [map_some]
    rw [Int.natAbs_of_nonneg (by omega)]

/-! ## Values -/

theorem skipWs_cons (h : isWs unit = false) (rest : List (Fin 65536)) :
    skipWs (unit :: rest) = unit :: rest := by
  rw [skipWs, dropWhile_cons_of_neg (by simp [h])]

theorem readMark_cons (h : isWs unit = false) (mark : Fin 65536) (rest : List (Fin 65536)) :
    readMark mark (unit :: rest) = if unit = mark then some rest else none := by
  rw [readMark, skipWs_cons h]

theorem stops_cons (h : isDigit unit = false ∧ unit.val ∉ [0x2E, 0x45, 0x65])
    (rest : List (Fin 65536)) : Stops (unit :: rest) := by
  rintro unit' ⟨⟩
  exact h

theorem head_integer (n : ℤ) : ∃ unit rest, (JsonText.integer n).units = unit :: rest
    ∧ (unit.val = 0x2D ∨ 0x30 ≤ unit.val ∧ unit.val ≤ 0x39) := by
  rw [JsonText.integer]
  split
  · exact ⟨0x2D, _, rfl, .inl rfl⟩
  · obtain ⟨hdigits, hne, -, -⟩ := digits_spec n.natAbs
    obtain ⟨unit, units, heq⟩ := exists_cons_of_ne_nil hne
    exact ⟨unit, units, heq, .inr (by simpa [isDigit] using hdigits unit (heq ▸ mem_cons_self))⟩

/-- What a value begins with is no white space and closes nothing. -/
theorem head_stringify (value : JsonTree) : ∃ unit rest, (stringify value).units = unit :: rest
    ∧ isWs unit = false ∧ unit ≠ 0x5D := by
  cases value with
  | null => exact ⟨0x6E, [0x75, 0x6C, 0x6C], by decide, by decide, by decide⟩
  | bool b =>
    cases b with
    | false => exact ⟨0x66, [0x61, 0x6C, 0x73, 0x65], by decide, by decide, by decide⟩
    | true => exact ⟨0x74, [0x72, 0x75, 0x65], by decide, by decide, by decide⟩
  | integer n =>
    obtain ⟨unit, units, heq, hunit⟩ := head_integer n
    refine ⟨unit, units, heq, ?_, ?_⟩
    · simp only [isWs, mem_cons, not_mem_nil, or_false, decide_eq_false_iff_not]
      omega
    · rintro rfl
      exact nomatch hunit
  | string s => exact ⟨0x22, _, rfl, by decide, by decide⟩
  | array items => exact ⟨0x5B, _, rfl, by decide, by decide⟩
  | object members => exact ⟨0x7B, _, rfl, by decide, by decide⟩

theorem units_join_cons_cons (sep part part' : JSString) (parts : List JSString) :
    (JSString.join sep (part :: part' :: parts)).units
      = part.units ++ (sep.units ++ (JSString.join sep (part' :: parts)).units) := by
  simp only [JSString.join, flatMap_cons, List.append_assoc]

theorem units_join_singleton (sep part : JSString) :
    (JSString.join sep [part]).units = part.units := by
  simp only [JSString.join, flatMap_nil, append_nil]

/-- What has been read back with some fuel. -/
def ReadsValues (fuel : ℕ) : Prop := ∀ (value : JsonTree) (rest : List (Fin 65536)),
  (stringify value).units.length < fuel → Stops rest →
    readValue fuel ((stringify value).units ++ rest) = some (value, rest)

def ReadsItems (fuel : ℕ) : Prop := ∀ (item : JsonTree) (items : List JsonTree)
  (rest : List (Fin 65536)),
  (JSString.join "," (stringifyItems (item :: items))).units.length + 1 < fuel →
    readItems fuel ((JSString.join "," (stringifyItems (item :: items))).units ++ 0x5D :: rest)
      = some (item :: items, rest)

def ReadsMembers (fuel : ℕ) : Prop := ∀ (member : JSString × JsonTree)
  (members : List (JSString × JsonTree)) (rest : List (Fin 65536)),
  (JSString.join "," (stringifyMembers (member :: members))).units.length + 1 < fuel →
    readMembers fuel ((JSString.join "," (stringifyMembers (member :: members))).units ++ 0x7D :: rest)
      = some (member :: members, rest)

theorem readsItems_succ {fuel : ℕ} (hvalues : ReadsValues fuel) (hitems : ReadsItems fuel) :
    ReadsItems (fuel + 1) := by
  intro item items rest hfuel
  cases items with
  | nil =>
    rw [stringifyItems, stringifyItems, units_join_singleton] at hfuel ⊢
    rw [readItems, hvalues item _ (by omega) (stops_cons (by decide) rest), bind_some]
    simp only [readMark_cons (show isWs 0x5D = false by decide)]
    rfl
  | cons item' items =>
    rw [stringifyItems, stringifyItems, units_join_cons_cons, ← stringifyItems] at hfuel ⊢
    rw [show (("," : JSString)).units = [0x2C] from rfl] at hfuel ⊢
    simp only [length_append, length_singleton] at hfuel
    obtain ⟨unit, units, hhead, -⟩ := head_stringify item
    have hpos : 0 < (stringify item).units.length := by rw [hhead]; exact Nat.succ_pos _
    rw [List.append_assoc, List.append_assoc, singleton_append, readItems,
      hvalues item _ (by omega) (stops_cons (by decide) _), bind_some]
    simp only [readMark_cons (show isWs 0x2C = false by decide), if_true,
      hitems item' items rest (by omega), map_some]

theorem readsMembers_succ {fuel : ℕ} (hvalues : ReadsValues fuel) (hmembers : ReadsMembers fuel) :
    ReadsMembers (fuel + 1) := by
  rintro ⟨name, value⟩ members rest hfuel
  -- one member, whatever stands behind it
  have hmember : ∀ tail : List (Fin 65536), (JsonText.quote name ++ (":" : JSString) ++ stringify value).units
      ++ tail = 0x22 :: (escape name.units ++ 0x22 :: 0x3A :: ((stringify value).units ++ tail)) := by
    intro tail
    rw [JsonText.quote]
    change (0x22 :: escape name.units ++ [0x22] ++ [0x3A] ++ (stringify value).units) ++ tail = _
    simp only [cons_append, List.append_assoc, nil_append]
  have hread : ∀ tail, (stringify value).units.length < fuel → Stops tail →
      readMembers (fuel + 1) ((JsonText.quote name ++ (":" : JSString) ++ stringify value).units ++ tail)
        = match readMark 0x2C tail with
          | some rest => (readMembers fuel rest).map fun (members, rest) => ((name, value) :: members, rest)
          | none => (readMark 0x7D tail).map fun rest => ([(name, value)], rest) := by
    intro tail hlength htail
    rw [hmember, readMembers]
    simp only [readMark_cons (show isWs 0x22 = false by decide), if_true, bind_some,
      readString_escape, readMark_cons (show isWs 0x3A = false by decide), hvalues value _ hlength htail]
  have hshorter : (stringify value).units.length
      < (JsonText.quote name ++ (":" : JSString) ++ stringify value).units.length := by
    have h := congrArg List.length (hmember [])
    rw [append_nil, append_nil] at h
    rw [h]
    simp only [length_cons, length_append]
    omega
  cases members with
  | nil =>
    rw [stringifyMembers, stringifyMembers, units_join_singleton] at hfuel ⊢
    rw [hread _ (by omega) (stops_cons (by decide) rest)]
    simp only [readMark_cons (show isWs 0x7D = false by decide)]
    rfl
  | cons member' members =>
    rw [stringifyMembers, show stringifyMembers (member' :: members) =
        (JsonText.quote member'.1 ++ (":" : JSString) ++ stringify member'.2) :: stringifyMembers members
      from rfl, units_join_cons_cons] at hfuel ⊢
    rw [show (("," : JSString)).units = [0x2C] from rfl] at hfuel ⊢
    simp only [length_append, length_singleton] at hfuel
    rw [List.append_assoc, List.append_assoc, singleton_append,
      hread _ (by omega) (stops_cons (by decide) _)]
    have hrest := hmembers member' members rest (by
      rw [show stringifyMembers (member' :: members) =
        (JsonText.quote member'.1 ++ (":" : JSString) ++ stringify member'.2) :: stringifyMembers members
        from rfl]
      omega)
    rw [show stringifyMembers (member' :: members) =
      (JsonText.quote member'.1 ++ (":" : JSString) ++ stringify member'.2) :: stringifyMembers members
      from rfl] at hrest
    simp only [readMark_cons (show isWs 0x2C = false by decide), if_true, hrest, map_some]

theorem readsValues_succ {fuel : ℕ} (hitems : ReadsItems fuel) (hmembers : ReadsMembers fuel) :
    ReadsValues (fuel + 1) := by
  intro value rest hfuel hrest
  cases value with
  | null => rfl
  | bool b => cases b <;> rfl
  | integer n =>
    have hread := readInteger_integer n hrest
    obtain ⟨unit, units, heq, hunit⟩ := head_integer n
    have hws : isWs unit = false := by
      simp only [isWs, mem_cons, not_mem_nil, or_false, decide_eq_false_iff_not]
      omega
    rw [heq, cons_append] at hread
    rw [stringify, heq, cons_append, readValue]
    simp only [skipWs_cons hws]
    rw [if_neg (by omega), if_neg (by omega), if_neg (by omega), if_neg (by omega), if_neg (by omega),
      if_neg (by omega), hread]
    rfl
  | string s =>
    rw [stringify, JsonText.quote, List.append_assoc, cons_append, readValue]
    simp only [skipWs_cons (show isWs 0x22 = false by decide)]
    rw [if_pos (by decide)]
    rw [singleton_append, readString_escape]
    rfl
  | array items =>
    have hunits : (stringify (.array items)).units
        = 0x5B :: ((JSString.join "," (stringifyItems items)).units ++ [0x5D]) := rfl
    rw [hunits] at hfuel ⊢
    simp only [length_cons, length_append, length_nil] at hfuel
    rw [cons_append, List.append_assoc, singleton_append, readValue]
    simp only [skipWs_cons (show isWs 0x5B = false by decide)]
    rw [if_neg (by decide), if_pos (by decide)]
    cases items with
    | nil =>
      rw [stringifyItems, JSString.join, nil_append, readMark_cons (by decide), if_pos rfl]
    | cons item items =>
      obtain ⟨unit, units, heq, hws, hne⟩ := head_stringify item
      have hfirst : readMark 0x5D ((JSString.join "," (stringifyItems (item :: items))).units
          ++ 0x5D :: rest) = none := by
        rw [stringifyItems, JSString.join, heq]
        simp only [cons_append]
        rw [readMark_cons hws, if_neg hne]
      simp only [hfirst, hitems item items rest (by omega), map_some]
  | object members =>
    have hunits : (stringify (.object members)).units
        = 0x7B :: ((JSString.join "," (stringifyMembers members)).units ++ [0x7D]) := rfl
    rw [hunits] at hfuel ⊢
    simp only [length_cons, length_append, length_nil] at hfuel
    rw [cons_append, List.append_assoc, singleton_append, readValue]
    simp only [skipWs_cons (show isWs 0x7B = false by decide)]
    rw [if_neg (by decide), if_neg (by decide), if_pos (by decide)]
    cases members with
    | nil =>
      rw [stringifyMembers, JSString.join, nil_append, readMark_cons (by decide), if_pos rfl]
    | cons member members =>
      have hfirst : readMark 0x7D ((JSString.join "," (stringifyMembers (member :: members))).units
          ++ 0x7D :: rest) = none := by
        rw [show stringifyMembers (member :: members) =
          (JsonText.quote member.1 ++ (":" : JSString) ++ stringify member.2) :: stringifyMembers members
          from rfl, JSString.join]
        exact (readMark_cons (show isWs 0x22 = false by decide) 0x7D _).trans (if_neg (by decide))
      simp only [hfirst, hmembers member members rest (by omega), map_some]

/-- **What was written is read back**, with what stands behind it: more fuel reads deeper values. -/
theorem reads (fuel : ℕ) : ReadsValues fuel ∧ ReadsItems fuel ∧ ReadsMembers fuel := by
  induction fuel with
  | zero => exact ⟨fun _ _ h => (nomatch h), fun _ _ _ h => (nomatch h), fun _ _ _ h => (nomatch h)⟩
  | succ fuel ih =>
    obtain ⟨hvalues, hitems, hmembers⟩ := ih
    exact ⟨readsValues_succ hitems hmembers, readsItems_succ hvalues hitems,
      readsMembers_succ hvalues hmembers⟩

/-- **`JSON.parse` reads what `JSON.stringify` wrote.** -/
theorem parse_stringify (value : JsonTree) : parse (stringify value) = some value := by
  have hread := (reads ((stringify value).units.length + 1)).1 value [] (Nat.lt_succ_self _)
    (fun _ h => nomatch h)
  rw [append_nil] at hread
  rw [parse, hread]
  rfl

/-! ## What is written is well formed -/

open TextEncoding

mutual

theorem isWellFormed_stringify (value : JsonTree) : IsWellFormed (stringify value) :=
  match value with
  | null => isWellFormed_ofString "null"
  | bool true => isWellFormed_ofString "true"
  | bool false => isWellFormed_ofString "false"
  | integer n => JsonText.isWellFormed_integer n
  | string s => isWellFormed_quote s
  | array items => JsonText.isWellFormed_array (isWellFormed_stringifyItems items)
  | object members => JsonText.isWellFormed_object (isWellFormed_stringifyMembers members)

theorem isWellFormed_stringifyItems (items : List JsonTree) :
    ∀ text ∈ stringifyItems items, IsWellFormed text :=
  match items with
  | [] => fun _ h => nomatch h
  | item :: items => forall_mem_cons.mpr
      ⟨isWellFormed_stringify item, isWellFormed_stringifyItems items⟩

theorem isWellFormed_stringifyMembers (members : List (JSString × JsonTree)) :
    ∀ text ∈ stringifyMembers members, IsWellFormed text :=
  match members with
  | [] => fun _ h => nomatch h
  | (name, value) :: members => forall_mem_cons.mpr
      ⟨((isWellFormed_quote name).append (isWellFormed_ofString ":")).append
        (isWellFormed_stringify value), isWellFormed_stringifyMembers members⟩

end

end JsonTree
