import MindooDB.View.AnyOrder
import MindooDB.View.NumberText

/-!
# View/RangeFilter — comparing in a filter and in a sort

`evaluateOperation` of `core/expressions/evaluateExpression.ts` compares the texts of two values,
and `compareValues` the values.  On words of digits and lowercase letters both agree; on numbers
exactly where their digits are written in the order of the numbers (`filtersAsSorted_iff`).
-/

namespace MindooDB

open List Option Written

/-! ## The operations -/

inductive ComparisonOp
  | gt
  | gte
  | lt
  | lte
  deriving DecidableEq

/-- `String(v ?? "")`; `none` where it throws. -/
def operandText (env : AnyRuntime) : AnyValue → Option JSString
  | .undefined => some ("" : JSString)
  | .null => some ("" : JSString)
  | .string s => some s
  | v => env.textOf v

def evaluateComparison (env : AnyRuntime) (op : ComparisonOp) (left right : AnyValue) :
    Option Bool := do
  let leftText ← operandText env left
  let rightText ← operandText env right
  return match op with
    | .gt => leftText > rightText
    | .gte => leftText ≥ rightText
    | .lt => leftText < rightText
    | .lte => leftText ≤ rightText

/-- What an operation says of the sign of a comparison. -/
def ComparisonOp.ofSign : ComparisonOp → ℤ → Bool
  | gt, result => result > 0
  | gte, result => result ≥ 0
  | lt, result => result < 0
  | lte, result => result ≤ 0

/-- **The operations say what the sort says.** -/
def SameVerdict (env : AnyRuntime) (left right : AnyValue) : Prop :=
  ∃ result, AnyValue.compareValues env left right false = some result
    ∧ ∀ op, evaluateComparison env op left right = some (op.ofSign result)

variable {env : AnyRuntime} {left right : AnyValue} {leftText rightText : JSString} {result : ℤ}

/-- The texts have to be ordered as the values are. -/
theorem sameVerdict_iff (hleft : operandText env left = some leftText)
    (hright : operandText env right = some rightText)
    (hresult : AnyValue.compareValues env left right false = some result) :
    SameVerdict env left right ↔
      (leftText < rightText ↔ result < 0) ∧ (rightText < leftText ↔ 0 < result) := by
  have heval (op : ComparisonOp) : evaluateComparison env op left right = some (match op with
      | .gt => leftText > rightText
      | .gte => leftText ≥ rightText
      | .lt => leftText < rightText
      | .lte => leftText ≤ rightText) := by
    rw [evaluateComparison, hleft, hright]
    rfl
  constructor
  · rintro ⟨result', hresult', hops⟩
    obtain rfl := some.inj (hresult.symm.trans hresult')
    have hlt := some.inj ((heval .lt).symm.trans (hops .lt))
    have hgt := some.inj ((heval .gt).symm.trans (hops .gt))
    exact ⟨decide_eq_decide.mp hlt, decide_eq_decide.mp hgt⟩
  · rintro ⟨hlt, hgt⟩
    refine ⟨result, hresult, fun op => (heval op).trans (congrArg some ?_)⟩
    cases op with
    | gt => exact decide_eq_decide.mpr hgt
    | gte => exact decide_eq_decide.mpr (not_lt.symm.trans ((not_congr hlt).trans not_lt))
    | lt => exact decide_eq_decide.mpr hlt
    | lte => exact decide_eq_decide.mpr (not_lt.symm.trans ((not_congr hgt).trans not_lt))

/-! ## Numbers -/

/-- **The lower of two magnitudes is written first.**  Without exponents its digits before the point
are no more than as many leading digits of the other one; otherwise the leading digits decide. -/
def WrittenFirst (a b : Written) : Prop :=
  match a.exponent, b.exponent with
  | none, none =>
    a.integer.length = b.integer.length ∨ a.integer ≤ b.integer.take a.integer.length
  | none, some _ =>
    a.integer < b.integer
      ∨ a.integer = b.integer ∧ ¬b.fraction < a.fraction.take b.fraction.length
      ∨ b.integer <+: a.integer ∧ a.integer ≠ b.integer ∧ b.fraction = []
  | some _, none =>
    a.integer < b.integer.take 1
      ∨ a.integer = b.integer ∧ a.fraction < b.fraction.take a.fraction.length
      ∨ a.integer <+: b.integer ∧ a.integer ≠ b.integer ∧ a.fraction ≠ []
  | some e, some e' =>
    a.integer < b.integer
      ∨ a.integer = b.integer
        ∧ RunBefore a.fraction b.fraction False True (ExponentBefore (some e) (some e'))

theorem not_prefix_singleton {l : List (Fin 10)} {d : Fin 10} (h : l ≠ []) :
    ¬(l <+: [d] ∧ l ≠ [d]) := by
  rintro ⟨hbegins, hne⟩
  have hlength := hbegins.length_le
  have hpos := length_pos_iff.mpr h
  exact hne (hbegins.eq_of_length (by rw [length_singleton] at hlength ⊢; omega))

/-- A run before one of one digit. -/
theorem runBefore_singleton {l : List (Fin 10)} {d : Fin 10} {endsLow endsHigh next : Prop}
    (h : l ≠ []) : RunBefore l [d] endsLow endsHigh next ↔
      l < [d] ∨ l = [d] ∧ next ∨ [d] <+: l ∧ l ≠ [d] ∧ endsHigh := by
  have htake : [d].take l.length = [d] :=
    take_of_length_le (length_pos_iff.mpr h)
  have hnot : ¬(l <+: [d] ∧ l ≠ [d] ∧ endsLow) := fun hbegins =>
    not_prefix_singleton h ⟨hbegins.1, hbegins.2.1⟩
  unfold RunBefore
  rw [htake, iff_false_intro hnot, false_or]

/-- **The lower of two magnitudes has the lower text** exactly if it is written first. -/
theorem text_lt_iff_writtenFirst {a b : Magnitude} (h : a.value < b.value) :
    a.written.text < b.written.text ↔ WrittenFirst a.written b.written := by
  have hvalue : a.written.value < b.written.value := by
    rw [a.value_written, b.value_written]
    exact h
  have hne := a.integer_ne_nil
  have hne' := b.integer_ne_nil
  have hone := @Magnitude.length_integer_of_exponent a
  have hone' := @Magnitude.length_integer_of_exponent b
  have hhead := a.head_integer_ne
  rw [text_lt_iff]
  generalize a.written = w at *
  generalize b.written = w' at *
  obtain ⟨integer, fraction, exponent⟩ := w
  obtain ⟨integer', fraction', exponent'⟩ := w'
  dsimp only at hne hne' hone hone' hhead ⊢
  cases exponent with
  | none =>
    cases exponent' with
    | none =>
      simp only [WrittenFirst, ne_eq, not_true_eq_false, and_false, or_true, ExponentBefore,
        runBefore_low_iff, or_false]
      obtain ⟨hlength, hsame⟩ : integer.length ≤ integer'.length
          ∧ (integer.length = integer'.length →
            integer < integer' ∨ integer = integer' ∧ fraction < fraction') := by
        refine runs_of_value_lt hhead hne' ?_
        rw [value, value, getD_none, zpow_zero, mul_one, mul_one] at hvalue
        exact hvalue
      rcases hlength.lt_or_eq with hlt | heq
      · have hdiffer : integer ≠ integer' := fun heq => hlt.ne (congrArg List.length heq)
        rw [lt_iff_le_take hlt]
        simp only [hdiffer, hlt.ne, false_and, or_false, false_or]
      · exact ⟨fun _ => .inl heq, fun _ => hsame heq⟩
    | some e' =>
      obtain ⟨d, rfl⟩ := length_eq_one_iff.mp (hone' rfl)
      simp only [WrittenFirst, ne_eq, reduceCtorEq, not_false_eq_true, and_true, or_true,
        ExponentBefore, runBefore_true_iff]
      rw [runBefore_singleton hne]
  | some e =>
    obtain ⟨d, rfl⟩ := length_eq_one_iff.mp (hone rfl)
    cases exponent' with
    | none =>
      simp only [WrittenFirst, ne_eq, reduceCtorEq, not_true_eq_false, and_false, or_false,
        ExponentBefore, runBefore_false_iff]
      unfold RunBefore
      simp only [and_false, or_false]
      rfl
    | some e' =>
      obtain ⟨d', rfl⟩ := length_eq_one_iff.mp (hone' rfl)
      simp only [WrittenFirst, ne_eq, reduceCtorEq, not_false_eq_true, and_true, or_false]
      rw [runBefore_singleton hne]
      have hnot : ¬([d'] <+: [d] ∧ [d] ≠ [d'] ∧ fraction' = []) := fun hbegins =>
        not_prefix_singleton hne' ⟨hbegins.1, hbegins.2.1.symm⟩
      rw [iff_false_intro hnot, or_false]

/-- Different magnitudes have different texts. -/
theorem text_ne_of_value_lt {a b : Magnitude} (h : a.value < b.value) :
    a.written.text ≠ b.written.text := by
  intro heq
  have hwritten := text_injective heq
  rw [← a.value_written, ← b.value_written, hwritten] at h
  exact lt_irrefl _ h

/-- **The lower of two numbers is written first**: always where they differ in sign, and the other
way round below zero. -/
def NumberWrittenFirst (x y : Decimal) : Prop :=
  match x.isNegative, y.isNegative with
  | false, false => WrittenFirst x.written y.written
  | true, true => ¬WrittenFirst y.written x.written
  | _, _ => True

theorem magnitude_text_eq_cons (m : Magnitude) :
    ∃ d rest, m.written.text = digitUnit d :: rest := by
  have hne := m.integer_ne_nil
  rw [text]
  cases hinteger : m.written.integer with
  | nil => exact absurd hinteger hne
  | cons d integer => exact ⟨d, _, rfl⟩

theorem Decimal.value_neg {x : Decimal} (h : x.isNegative = true) : x.value < 0 := by
  rw [Decimal.value, if_pos h]
  exact neg_neg_of_pos (x.toMagnitude.value_pos (x.ne_zero h))

theorem Decimal.value_nonneg {x : Decimal} (h : x.isNegative = false) : 0 ≤ x.value := by
  rw [Decimal.value, if_neg (Bool.eq_false_iff.mp h)]
  exact x.toMagnitude.value_nonneg

/-- **The texts of two numbers**: they differ, and the lower number has the lower text exactly if it
is written first. -/
theorem decimal_text_spec {x y : Decimal} (h : x.value < y.value) :
    x.text ≠ y.text ∧ (x.text < y.text ↔ NumberWrittenFirst x y) := by
  have hminus : (0x2D : Fin 65536).val < 0x30 := by decide
  unfold NumberWrittenFirst
  rw [JSString.lt_def, ne_eq, ← JSString.units_injective.eq_iff, Decimal.text, Decimal.text]
  cases hx : x.isNegative with
  | true =>
    cases hy : y.isNegative with
    | true =>
      have hvalue : y.toMagnitude.value < x.toMagnitude.value := by
        rw [Decimal.value, Decimal.value, if_pos hx, if_pos hy] at h
        exact neg_lt_neg_iff.mp h
      have hne := text_ne_of_value_lt hvalue
      rw [← text_lt_iff_writtenFirst hvalue]
      simp only [if_true, List.cons.injEq, true_and, cons_lt_cons_iff, lt_irrefl, false_or]
      exact ⟨hne.symm, fun hlt => hlt.not_gt, fun hnot => (not_lt.mp hnot).lt_of_ne hne.symm⟩
    | false =>
      obtain ⟨d, rest, htext⟩ := magnitude_text_eq_cons y.toMagnitude
      have hlt := lt_digitUnit d hminus
      simp only [if_true, Bool.false_eq_true, if_false, htext, List.cons.injEq, hlt.ne, false_and,
        not_false_eq_true, cons_lt_cons_iff, hlt, true_or, and_self]
  | false =>
    cases hy : y.isNegative with
    | true =>
      have hneg := Decimal.value_neg hy
      have hnonneg := Decimal.value_nonneg hx
      exact absurd h (not_lt.mpr (hneg.le.trans hnonneg))
    | false =>
      have hvalue : x.toMagnitude.value < y.toMagnitude.value := by
        rw [Decimal.value, Decimal.value, if_neg (Bool.eq_false_iff.mp hx),
          if_neg (Bool.eq_false_iff.mp hy)] at h
        exact h
      exact ⟨text_ne_of_value_lt hvalue, text_lt_iff_writtenFirst hvalue⟩

/-- **How numbers are printed**: a number is read back from its digits, and reading is monotone. -/
structure PrintsNumbers (env : AnyRuntime) (numbers : Set ℚ) (decimalOf : ℚ → Decimal) : Prop where
  text : ∀ x ∈ numbers, env.textOf (.number (.finite x)) = some (decimalOf x).text
  reads : ∃ round : ℚ → ℚ, Monotone round ∧ ∀ x ∈ numbers, round (decimalOf x).value = x

section Numbers

variable {numbers : Set ℚ} {decimalOf : ℚ → Decimal} {x y : ℚ}

theorem PrintsNumbers.value_lt (h : PrintsNumbers env numbers decimalOf) (hx : x ∈ numbers)
    (hy : y ∈ numbers) (hlt : x < y) : (decimalOf x).value < (decimalOf y).value := by
  obtain ⟨round, hround, hreads⟩ := h.reads
  by_contra hge
  have hle := hround (not_lt.mp hge)
  rw [hreads x hx, hreads y hy] at hle
  exact absurd hle (not_le.mpr hlt)

theorem differenceSign_neg_iff (x y : ℚ) : differenceSign x y < 0 ↔ x < y := by
  unfold differenceSign
  split_ifs with h h'
  · exact ⟨fun _ => h, fun _ => by decide⟩
  · exact ⟨fun h => absurd h (lt_irrefl _), fun hlt => absurd hlt h⟩
  · exact ⟨nofun, fun hlt => absurd hlt h⟩

theorem differenceSign_pos_iff (x y : ℚ) : 0 < differenceSign x y ↔ y < x := by
  rw [← orders_differenceSign.swap x y, differenceSign_neg_iff]

/-- **Numbers are filtered as they are sorted** exactly if the lower one is written first. -/
theorem sameVerdict_numbers_iff (h : PrintsNumbers env numbers decimalOf) (hx : x ∈ numbers)
    (hy : y ∈ numbers) : SameVerdict env (.number (.finite x)) (.number (.finite y)) ↔
      (x < y → NumberWrittenFirst (decimalOf x) (decimalOf y))
        ∧ (y < x → NumberWrittenFirst (decimalOf y) (decimalOf x)) := by
  have hleft : operandText env (.number (.finite x)) = some (decimalOf x).text := h.text x hx
  have hright : operandText env (.number (.finite y)) = some (decimalOf y).text := h.text y hy
  have hresult : AnyValue.compareValues env (.number (.finite x)) (.number (.finite y)) false
      = some (differenceSign x y) := rfl
  rw [sameVerdict_iff hleft hright hresult, differenceSign_neg_iff, differenceSign_pos_iff]
  rcases lt_trichotomy x y with hlt | rfl | hgt
  · obtain ⟨hne, hfirst⟩ := decimal_text_spec (h.value_lt hx hy hlt)
    rw [← hfirst]
    simp only [hlt, hlt.not_gt, iff_true, iff_false, not_lt, true_imp_iff, false_imp_iff, and_true]
    exact ⟨And.left, fun htext => ⟨htext, htext.le⟩⟩
  · simp only [lt_irrefl, false_imp_iff, and_self]
  · obtain ⟨hne, hfirst⟩ := decimal_text_spec (h.value_lt hy hx hgt)
    rw [← hfirst]
    simp only [hgt, hgt.not_gt, iff_true, iff_false, not_lt, true_imp_iff, false_imp_iff, true_and]
    exact ⟨And.right, fun htext => ⟨htext.le, htext⟩⟩

end Numbers

/-! ## Words -/

/-- An ASCII digit or a lowercase letter. -/
def IsWordUnit (unit : Fin 65536) : Prop :=
  0x30 ≤ unit.val ∧ unit.val ≤ 0x39 ∨ 0x61 ≤ unit.val ∧ unit.val ≤ 0x7A

instance : DecidablePred IsWordUnit := fun _ => inferInstanceAs (Decidable (_ ∨ _))

/-- **A word** of digits and lowercase letters. -/
def IsWord (s : JSString) : Prop := s.units ≠ [] ∧ ∀ unit ∈ s.units, IsWordUnit unit

theorem isWord_of_all {s : JSString} (hne : s.units ≠ [])
    (hall : (s.units.all fun unit => decide (IsWordUnit unit)) = true) : IsWord s :=
  ⟨hne, fun unit hunit => of_decide_eq_true (List.all_eq_true.mp hall unit hunit)⟩

/-- **The collation of words**: by the weights of their letters, which grow from `0` to `z`. -/
structure Runtime.CollatesByWeight (env : Runtime) (weight : Fin 65536 → ℕ) : Prop where
  mono : ∀ u v, IsWordUnit u → IsWordUnit v → u < v → weight u < weight v
  neg : ∀ s t, IsWord s → IsWord t →
    (env.baseSensitivityCollator s t < 0 ↔ s.units.map weight < t.units.map weight)
  pos : ∀ s t, IsWord s → IsWord t →
    (0 < env.baseSensitivityCollator s t ↔ t.units.map weight < s.units.map weight)

/-- Weights order words as their units do. -/
theorem map_weight_lt_iff {weight : Fin 65536 → ℕ}
    (hmono : ∀ u v, IsWordUnit u → IsWordUnit v → u < v → weight u < weight v)
    {l l' : List (Fin 65536)} (hl : ∀ unit ∈ l, IsWordUnit unit)
    (hl' : ∀ unit ∈ l', IsWordUnit unit) : l.map weight < l'.map weight ↔ l < l' := by
  induction l generalizing l' with
  | nil =>
    cases l' with
    | nil => simp
    | cons v l' => simp
  | cons u l ih =>
    cases l' with
    | nil => simp
    | cons v l' =>
      obtain ⟨hu, hl⟩ := forall_mem_cons.mp hl
      obtain ⟨hv, hl'⟩ := forall_mem_cons.mp hl'
      rw [map_cons, map_cons, cons_lt_cons_iff, cons_lt_cons_iff, ih hl hl']
      rcases lt_trichotomy u v with hlt | rfl | hgt
      · simp [hlt, hmono u v hu hv hlt]
      · simp
      · have hweight := hmono v u hv hu hgt
        simp [hgt.not_gt, hgt.ne', hweight.not_gt, hweight.ne']

/-- **Words are filtered as they are sorted.** -/
theorem sameVerdict_words {weight : Fin 65536 → ℕ} (h : env.CollatesByWeight weight)
    {s t : JSString} (hs : IsWord s) (ht : IsWord t) :
    SameVerdict env (.string s) (.string t) := by
  have hresult : AnyValue.compareValues env (.string s) (.string t) false
      = some (env.baseSensitivityCollator s t) := by
    have hnull {s : JSString} (hs : IsWord s) : (AnyValue.string s).sortsAsNull = false := by
      rw [AnyValue.sortsAsNull, JSString.isEmpty, isEmpty_eq_false_iff]
      exact hs.1
    rw [AnyValue.compareValues, AnyValue.compareSentinels_eq, if_pos ⟨rfl, rfl⟩, hnull hs, hnull ht]
    rfl
  rw [sameVerdict_iff (rfl : operandText env (.string s) = some s)
    (rfl : operandText env (.string t) = some t) hresult, h.neg s t hs ht, h.pos s t hs ht,
    map_weight_lt_iff h.mono hs.2 ht.2, map_weight_lt_iff h.mono ht.2 hs.2, JSString.lt_def,
    JSString.lt_def]
  exact ⟨Iff.rfl, Iff.rfl⟩

/-- **Filtering and sorting use one order** on words, and on numbers exactly if the lower one is
written first. -/
theorem filtersAsSorted_iff {numbers : Set ℚ} {decimalOf : ℚ → Decimal} {weight : Fin 65536 → ℕ}
    (hprints : PrintsNumbers env numbers decimalOf) (hcollates : env.CollatesByWeight weight) :
    (∀ x ∈ numbers, ∀ y ∈ numbers,
      (SameVerdict env (.number (.finite x)) (.number (.finite y)) ↔
        (x < y → NumberWrittenFirst (decimalOf x) (decimalOf y))
          ∧ (y < x → NumberWrittenFirst (decimalOf y) (decimalOf x))))
      ∧ ∀ s t, IsWord s → IsWord t → SameVerdict env (.string s) (.string t) :=
  ⟨fun _ hx _ hy => sameVerdict_numbers_iff hprints hx hy,
    fun _ _ hs ht => sameVerdict_words hcollates hs ht⟩

/-! ## Nine, ten and a half -/

/-- A number of one digit. -/
def oneDigit (d : Fin 10) (hd : d ≠ 0) (pointPosition : ℤ) (isNegative : Bool) : Decimal where
  digits := [d]
  pointPosition
  head_ne h := hd (some.inj h)
  last_ne h := hd (some.inj h)
  zero := nofun
  isNegative
  ne_zero _ := cons_ne_nil _ _

/-- The digits of nine, ten and minus a half. -/
def sampleDecimal (x : ℚ) : Decimal :=
  if x = 9 then oneDigit 9 (by decide) 1 false
  else if x = 10 then oneDigit 1 (by decide) 2 false
  else oneDigit 5 (by decide) 0 true

/-- The runtime that compares code units, with the text of the numbers. -/
def numbersRuntime : AnyRuntime where
  toRuntime := unitsRuntime.toRuntime
  textOf
    | .number (.finite x) => some (sampleDecimal x).text
    | v => unitsRuntime.textOf v

def sampleNumbers : Set ℚ := {9, 10, -1 / 2}

theorem printsNumbers_sample : PrintsNumbers numbersRuntime sampleNumbers sampleDecimal := by
  refine ⟨fun _ _ => rfl, id, monotone_id, ?_⟩
  rintro x (rfl | rfl | rfl)
  · rw [sampleDecimal, if_pos rfl]
    norm_num [Decimal.value, Magnitude.value, oneDigit, fracValue]
  · rw [sampleDecimal, if_neg (by norm_num), if_pos rfl]
    norm_num [Decimal.value, Magnitude.value, oneDigit, fracValue]
  · rw [sampleDecimal, if_neg (by norm_num), if_neg (by norm_num)]
    norm_num [Decimal.value, Magnitude.value, oneDigit, fracValue]

theorem compareUnits_neg_iff (s t : JSString) : compareUnits s t < 0 ↔ s < t := by
  unfold compareUnits
  split_ifs with h h'
  · exact ⟨fun _ => h, fun _ => by decide⟩
  · exact ⟨nofun, fun hlt => absurd hlt h⟩
  · exact ⟨fun h => absurd h (lt_irrefl _), fun hlt => absurd hlt h⟩

theorem collatesByWeight_numbersRuntime : numbersRuntime.CollatesByWeight Fin.val where
  mono _ _ _ _ h := h
  neg s t hs ht := by
    rw [map_weight_lt_iff (fun _ _ _ _ h => h) hs.2 ht.2]
    exact compareUnits_neg_iff s t
  pos s t hs ht := by
    rw [map_weight_lt_iff (fun _ _ _ _ h => h) ht.2 hs.2]
    exact (orders_compareUnits.swap s t).symm.trans (compareUnits_neg_iff t s)

/-- Minus a half and nine differ in sign. -/
theorem filtersAsSorted_sample :
    SameVerdict numbersRuntime (.number (.finite (-1 / 2))) (.number (.finite 9))
      ∧ SameVerdict numbersRuntime (.string "a1") (.string "b") := by
  obtain ⟨hnumbers, hwords⟩ :=
    filtersAsSorted_iff printsNumbers_sample collatesByWeight_numbersRuntime
  have hhalf : sampleDecimal (-1 / 2) = oneDigit 5 (by decide) 0 true := by
    rw [sampleDecimal, if_neg (by norm_num), if_neg (by norm_num)]
  have hnine : sampleDecimal 9 = oneDigit 9 (by decide) 1 false := if_pos rfl
  constructor
  · refine (hnumbers (-1 / 2) (.inr (.inr rfl)) 9 (.inl rfl)).mpr ⟨fun _ => ?_, fun h => ?_⟩
    · rw [hhalf, hnine]
      trivial
    · exact absurd h (by norm_num)
  · exact hwords "a1" "b" (isWord_of_all (by decide) (by decide))
      (isWord_of_all (by decide) (by decide))

/-- **Ten sorts behind nine**, but a filter does not find it above nine. -/
theorem not_sameVerdict_nineTen :
    ¬SameVerdict numbersRuntime (.number (.finite 9)) (.number (.finite 10))
      ∧ AnyValue.compareValues numbersRuntime (.number (.finite 9)) (.number (.finite 10)) false
        = some (-1)
      ∧ evaluateComparison numbersRuntime .lt (.number (.finite 9)) (.number (.finite 10))
        = some false := by
  have hsorted : AnyValue.compareValues numbersRuntime (.number (.finite 9))
      (.number (.finite 10)) false = some (-1) := by decide +kernel
  have hfiltered : evaluateComparison numbersRuntime .lt (.number (.finite 9))
      (.number (.finite 10)) = some false := by decide +kernel
  refine ⟨?_, hsorted, hfiltered⟩
  rintro ⟨result, hresult, hops⟩
  obtain rfl := some.inj (hsorted.symm.trans hresult)
  exact absurd (hfiltered.symm.trans (hops .lt)) (by decide)

end MindooDB
