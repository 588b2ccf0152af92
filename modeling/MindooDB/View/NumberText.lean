import MindooDB.Lib.DigitText
import MindooDB.Lib.JSString

/-!
# View/NumberText — the text of a number

`Number::toString`: a finite number is printed from its shortest decimal digits and the position of
the point, with an exponent where it is large or small.  Texts are compared by what stands before
the point, behind it, and in the exponent (`Written.text_lt_iff`).
-/

namespace MindooDB

open List Option

/-- **The shortest digits of a number that is not negative**: it is `0.d₁d₂… · 10 ^ pointPosition`;
zero has none. -/
structure Magnitude where
  digits : List (Fin 10)
  pointPosition : ℤ
  head_ne : digits.head? ≠ some 0
  last_ne : digits.getLast? ≠ some 0
  zero : digits = [] → pointPosition = 1

def Magnitude.value (m : Magnitude) : ℚ := fracValue m.digits * 10 ^ m.pointPosition

/-- The parts of a text: the digits before the point and behind it, and an exponent. -/
structure Written where
  integer : List (Fin 10)
  fraction : List (Fin 10)
  exponent : Option ℤ

namespace Written

def digitUnit (d : Fin 10) : Fin 65536 := ⟨0x30 + d.val, by omega⟩

def exponentText : Option ℤ → List (Fin 65536)
  | none => []
  | some e => 0x65 :: (if 0 < e then 0x2B else 0x2D) :: (decimalDigits e.natAbs).map digitUnit

/-- What follows the digits before the point. -/
def pointText (fraction : List (Fin 10)) (exponent : Option ℤ) : List (Fin 65536) :=
  if fraction = [] then exponentText exponent
  else 0x2E :: (fraction.map digitUnit ++ exponentText exponent)

def text (w : Written) : List (Fin 65536) :=
  w.integer.map digitUnit ++ pointText w.fraction w.exponent

def value (w : Written) : ℚ :=
  (natValue w.integer + fracValue w.fraction) * 10 ^ w.exponent.getD 0

end Written

/-- How a number is written. -/
def Magnitude.written (m : Magnitude) : Written :=
  let n := m.pointPosition
  if m.digits.length ≤ n ∧ n ≤ 21 then
    ⟨m.digits ++ List.replicate (n.toNat - m.digits.length) 0, [], none⟩
  else if 0 < n ∧ n ≤ 21 then ⟨m.digits.take n.toNat, m.digits.drop n.toNat, none⟩
  else if -6 < n ∧ n ≤ 0 then ⟨[0], List.replicate (-n).toNat 0 ++ m.digits, none⟩
  else ⟨m.digits.take 1, m.digits.drop 1, some (n - 1)⟩

/-- A finite number: its magnitude and its sign.  Negative zero is printed as zero. -/
structure Decimal extends Magnitude where
  isNegative : Bool
  ne_zero : isNegative = true → digits ≠ []

def Decimal.value (d : Decimal) : ℚ :=
  if d.isNegative then -d.toMagnitude.value else d.toMagnitude.value

/-- `Number::toString`. -/
def Decimal.text (d : Decimal) : JSString :=
  ⟨if d.isNegative then 0x2D :: d.written.text else d.written.text⟩

/-! ## The order of the texts -/

namespace Written

theorem strictMono_digitUnit : StrictMono digitUnit := fun _ _ h => Nat.add_lt_add_left h _

/-- An exponent's text comes before another's. -/
def ExponentBefore : Option ℤ → Option ℤ → Prop
  | none, some _ => True
  | some e, some e' =>
    0 < e ∧ ¬0 < e' ∨ (0 < e ↔ 0 < e') ∧ decimalDigits e.natAbs < decimalDigits e'.natAbs
  | _, none => False

theorem endsLow_nil : EndsLow digitUnit [] := fun _ hunit => absurd hunit (not_mem_none _)

theorem not_endsHigh_nil : ¬EndsHigh digitUnit [] := fun ⟨_, hunit, _⟩ =>
  absurd hunit (not_mem_none _)

theorem digitUnit_lt (d : Fin 10) {unit : Fin 65536} (h : 0x39 < unit.val) :
    digitUnit d < unit := by
  have hd := d.isLt
  refine lt_of_le_of_lt (b := (⟨0x39, by decide⟩ : Fin 65536)) ?_ h
  exact Nat.add_le_add_left (Nat.le_of_lt_succ hd) _

theorem lt_digitUnit (d : Fin 10) {unit : Fin 65536} (h : unit.val < 0x30) : unit < digitUnit d :=
  lt_of_lt_of_le (b := (⟨0x30, by decide⟩ : Fin 65536)) h (Nat.le_add_right _ _)

theorem endsHigh_exponentText (e : ℤ) : EndsHigh digitUnit (exponentText (some e)) :=
  ⟨0x65, rfl, fun d => digitUnit_lt d (by decide)⟩

theorem not_endsLow_exponentText (e : ℤ) : ¬EndsLow digitUnit (exponentText (some e)) := fun h =>
  nomatch h 0x65 rfl 0

theorem endsLow_point (rest : List (Fin 65536)) : EndsLow digitUnit (0x2E :: rest) := by
  intro unit hunit d
  cases hunit
  exact lt_digitUnit d (by decide)

theorem not_endsHigh_point (rest : List (Fin 65536)) : ¬EndsHigh digitUnit (0x2E :: rest) := by
  rintro ⟨unit, hunit, hhigh⟩
  cases hunit
  exact nomatch hhigh 0

theorem endsLow_exponentText_iff (e : Option ℤ) :
    EndsLow digitUnit (exponentText e) ↔ e = none := by
  cases e with
  | none => exact ⟨fun _ => rfl, fun _ => endsLow_nil⟩
  | some e => exact ⟨fun h => absurd h (not_endsLow_exponentText e), nofun⟩

theorem endsHigh_exponentText_iff (e : Option ℤ) :
    EndsHigh digitUnit (exponentText e) ↔ e ≠ none := by
  cases e with
  | none => exact ⟨fun h => absurd h not_endsHigh_nil, fun h => absurd rfl h⟩
  | some e => exact ⟨fun _ => some_ne_none e, fun _ => endsHigh_exponentText e⟩

theorem ends_exponentText (e : Option ℤ) :
    EndsLow digitUnit (exponentText e) ∨ EndsHigh digitUnit (exponentText e) := by
  rw [endsLow_exponentText_iff, endsHigh_exponentText_iff]
  exact em _

theorem endsLow_pointText_iff (fraction : List (Fin 10)) (e : Option ℤ) :
    EndsLow digitUnit (pointText fraction e) ↔ fraction ≠ [] ∨ e = none := by
  unfold pointText
  split_ifs with h
  · rw [endsLow_exponentText_iff]
    exact ⟨.inr, fun h' => h'.resolve_left fun hne => hne h⟩
  · exact ⟨fun _ => .inl h, fun _ => endsLow_point _⟩

theorem endsHigh_pointText_iff (fraction : List (Fin 10)) (e : Option ℤ) :
    EndsHigh digitUnit (pointText fraction e) ↔ fraction = [] ∧ e ≠ none := by
  unfold pointText
  split_ifs with h
  · rw [endsHigh_exponentText_iff]
    exact ⟨fun h' => ⟨h, h'⟩, And.right⟩
  · exact ⟨fun h' => absurd h' (not_endsHigh_point _), fun h' => absurd h'.1 h⟩

theorem ends_pointText (fraction : List (Fin 10)) (e : Option ℤ) :
    EndsLow digitUnit (pointText fraction e) ∨ EndsHigh digitUnit (pointText fraction e) := by
  rw [endsLow_pointText_iff, endsHigh_pointText_iff]
  tauto

theorem map_digitUnit_lt_iff (a b : List (Fin 10)) :
    a.map digitUnit < b.map digitUnit ↔ a < b := by
  have hunits := digits_append_lt_iff strictMono_digitUnit (.inl endsLow_nil) (.inl endsLow_nil) a b
  rw [append_nil, append_nil, iff_true_intro endsLow_nil,
    iff_false_intro not_endsHigh_nil, runBefore_low_iff] at hunits
  rw [hunits]
  simp only [not_lt_nil, and_false, or_false]

theorem exponentText_lt_iff (e e' : Option ℤ) :
    exponentText e < exponentText e' ↔ ExponentBefore e e' := by
  cases e with
  | none =>
    cases e' with
    | none => exact ⟨fun h => absurd h (not_lt_nil _), False.elim⟩
    | some e' => exact ⟨fun _ => trivial, fun _ => nil_lt_cons _ _⟩
  | some e =>
    cases e' with
    | none => exact ⟨fun h => absurd h (not_lt_nil _), False.elim⟩
    | some e' =>
      unfold exponentText ExponentBefore
      rw [cons_lt_cons_iff, cons_lt_cons_iff, map_digitUnit_lt_iff]
      by_cases he : 0 < e <;> by_cases he' : 0 < e' <;> simp [he, he']

theorem pointText_lt_iff (f f' : List (Fin 10)) (e e' : Option ℤ) :
    pointText f e < pointText f' e' ↔
      RunBefore f f' (e = none) (e' ≠ none) (ExponentBefore e e') := by
  unfold pointText
  cases f with
  | nil =>
    cases f' with
    | nil =>
      rw [if_pos rfl, if_pos rfl, exponentText_lt_iff]
      simp [RunBefore]
    | cons d' f' =>
      rw [if_pos rfl, if_neg (cons_ne_nil _ _)]
      cases e with
      | none => simp [RunBefore, exponentText]
      | some e => simp [RunBefore, exponentText, cons_lt_cons_iff]
  | cons d f =>
    cases f' with
    | nil =>
      rw [if_neg (cons_ne_nil _ _), if_pos rfl]
      cases e' with
      | none => simp [RunBefore, exponentText]
      | some e' => simp [RunBefore, exponentText, cons_lt_cons_iff]
    | cons d' f' =>
      rw [if_neg (cons_ne_nil _ _), if_neg (cons_ne_nil _ _), cons_lt_cons_iff,
        digits_append_lt_iff strictMono_digitUnit (ends_exponentText e) (ends_exponentText e'),
        endsLow_exponentText_iff, endsHigh_exponentText_iff, exponentText_lt_iff]
      simp only [lt_irrefl, false_or, true_and]

/-- **How texts are ordered.** -/
theorem text_lt_iff (a b : Written) : a.text < b.text ↔
    RunBefore a.integer b.integer (a.fraction ≠ [] ∨ a.exponent = none)
      (b.fraction = [] ∧ b.exponent ≠ none)
      (RunBefore a.fraction b.fraction (a.exponent = none) (b.exponent ≠ none)
        (ExponentBefore a.exponent b.exponent)) := by
  rw [text, text, digits_append_lt_iff strictMono_digitUnit (ends_pointText _ _)
    (ends_pointText _ _), endsLow_pointText_iff, endsHigh_pointText_iff, pointText_lt_iff]

/-! ## Equal texts -/

theorem exponentText_injective : Function.Injective exponentText := by
  intro e e' h
  cases e with
  | none =>
    cases e' with
    | none => rfl
    | some e' => cases h
  | some e =>
    cases e' with
    | none => cases h
    | some e' =>
      unfold exponentText at h
      rw [List.cons.injEq, List.cons.injEq, strictMono_digitUnit.injective.list_map.eq_iff] at h
      obtain ⟨-, hsign, hdigits⟩ := h
      have habs := congrArg natValue hdigits
      rw [natValue_decimalDigits, natValue_decimalDigits] at habs
      congr 1
      split_ifs at hsign with he he' he'
      · omega
      · exact nomatch hsign
      · exact nomatch hsign
      · omega

theorem pointText_inj {f f' : List (Fin 10)} {e e' : Option ℤ}
    (h : pointText f e = pointText f' e') : f = f' ∧ e = e' := by
  have hpoint {f : List (Fin 10)} {e e' : Option ℤ}
      (heq : 0x2E :: (f.map digitUnit ++ exponentText e) = exponentText e') : False := by
    cases e' with
    | none => cases heq
    | some e' => exact absurd (List.cons.inj heq).1 (by decide)
  unfold pointText at h
  split_ifs at h with hf hf' hf'
  · exact ⟨hf.trans hf'.symm, exponentText_injective h⟩
  · exact (hpoint h.symm).elim
  · exact (hpoint h).elim
  · obtain ⟨hfraction, hexponent⟩ := digits_append_inj strictMono_digitUnit (ends_exponentText e)
      (ends_exponentText e') (List.cons.inj h).2
    exact ⟨hfraction, exponentText_injective hexponent⟩

/-- **A text is written in one way.** -/
theorem text_injective : Function.Injective text := by
  intro a b h
  obtain ⟨hinteger, hpoint⟩ := digits_append_inj strictMono_digitUnit (ends_pointText _ _)
    (ends_pointText _ _) h
  obtain ⟨hfraction, hexponent⟩ := pointText_inj hpoint
  cases a
  cases b
  congr

end Written

/-! ## The value of what is written -/

namespace Magnitude

variable (m : Magnitude)

/-- The four ways to write a number. -/
theorem written_cases {P : Written → Prop}
    (hinteger : (m.digits.length : ℤ) ≤ m.pointPosition → P ⟨m.digits ++ List.replicate
      (m.pointPosition.toNat - m.digits.length) 0, [], none⟩)
    (hpoint : 0 < m.pointPosition → m.pointPosition < m.digits.length →
      P ⟨m.digits.take m.pointPosition.toNat, m.digits.drop m.pointPosition.toNat, none⟩)
    (hzeros : m.pointPosition ≤ 0 →
      P ⟨[0], List.replicate (-m.pointPosition).toNat 0 ++ m.digits, none⟩)
    (hexponent : m.digits ≠ [] →
      P ⟨m.digits.take 1, m.digits.drop 1, some (m.pointPosition - 1)⟩) : P m.written := by
  unfold written
  dsimp only
  split_ifs with h₁ h₂ h₃
  · exact hinteger h₁.1
  · exact hpoint h₂.1 (by omega)
  · exact hzeros h₃.2
  · refine hexponent fun hnil => ?_
    have hone := m.zero hnil
    omega

/-- **What is written has the number's value.** -/
theorem value_written : m.written.value = m.value := by
  have hten : (10 : ℚ) ≠ 0 := by norm_num
  refine m.written_cases (P := fun w => w.value = m.value) (fun h => ?_) (fun h h' => ?_)
    (fun h => ?_) fun h => ?_
  · have hn : m.pointPosition = (m.pointPosition.toNat : ℤ) := (Int.toNat_of_nonneg (by omega)).symm
    have hlength : (m.digits ++ List.replicate (m.pointPosition.toNat - m.digits.length)
        (0 : Fin 10)).length = m.pointPosition.toNat := by
      rw [length_append, length_replicate]
      omega
    have happend := fracValue_append (m.digits ++ List.replicate
      (m.pointPosition.toNat - m.digits.length) 0) []
    rw [append_nil, fracValue_append_zeros, hlength] at happend
    rw [Written.value, ← happend, Magnitude.value, getD_none, zpow_zero, mul_one, hn,
      zpow_natCast, Int.toNat_natCast]
  · have hn : m.pointPosition = (m.pointPosition.toNat : ℤ) := (Int.toNat_of_nonneg h.le).symm
    have happend := fracValue_append (m.digits.take m.pointPosition.toNat)
      (m.digits.drop m.pointPosition.toNat)
    rw [take_append_drop, length_take_of_le (by omega)] at happend
    rw [Written.value, ← happend, Magnitude.value, getD_none, zpow_zero, mul_one]
    conv_rhs => rw [hn, zpow_natCast]
  · have hn : m.pointPosition = -((-m.pointPosition).toNat : ℤ) := by omega
    have happend := fracValue_append (List.replicate (-m.pointPosition).toNat 0) m.digits
    have hzeros : natValue (List.replicate (-m.pointPosition).toNat 0) = 0 := by
      generalize (-m.pointPosition).toNat = k
      induction k with
      | zero => rfl
      | succ k ih =>
        rw [replicate_succ, natValue, ih]
        simp
    rw [length_replicate, hzeros, Nat.cast_zero, zero_add] at happend
    rw [Written.value, Magnitude.value, getD_none, zpow_zero, mul_one, ← happend, mul_assoc]
    have hpow : (10 : ℚ) ^ (-m.pointPosition).toNat * 10 ^ m.pointPosition = 1 := by
      rw [← zpow_natCast, ← zpow_add₀ hten]
      have hsum : ((-m.pointPosition).toNat : ℤ) + m.pointPosition = 0 := by omega
      rw [hsum, zpow_zero]
    rw [hpow, mul_one]
    simp [natValue]
  · have happend := fracValue_append (m.digits.take 1) (m.digits.drop 1)
    rw [take_append_drop, length_take_of_le (length_pos_iff.mpr h), pow_one] at happend
    rw [Written.value, ← happend, Magnitude.value, getD_some, mul_assoc,
      ← zpow_one_add₀ hten]
    congr 2
    ring

theorem integer_ne_nil : m.written.integer ≠ [] := by
  refine m.written_cases (P := fun w => w.integer ≠ []) (fun h hnil => ?_) (fun h h' hnil => ?_)
    (fun _ => cons_ne_nil _ _) fun h hnil => ?_
  · obtain ⟨hdigits, hreplicate⟩ := append_eq_nil_iff.mp hnil
    have hone := m.zero hdigits
    rw [hdigits, hone] at hreplicate
    cases hreplicate
  · rcases take_eq_nil_iff.mp hnil with hzero | hdigits
    · omega
    · rw [hdigits] at h'
      exact absurd h' (by simp only [length_nil, Nat.cast_zero]; omega)
  · rcases take_eq_nil_iff.mp hnil with hzero | hdigits
    · exact nomatch hzero
    · exact h hdigits

/-- **No zero leads** further digits before the point. -/
theorem head_integer_ne : m.written.integer.tail ≠ [] → m.written.integer.head? ≠ some 0 := by
  refine m.written_cases (P := fun w => w.integer.tail ≠ [] → w.integer.head? ≠ some 0)
    (fun h htail => ?_) (fun h h' _ => ?_) (fun _ htail => absurd rfl htail) fun h _ => ?_
  · by_cases hdigits : m.digits = []
    · have hone := m.zero hdigits
      rw [hdigits, hone] at htail
      exact absurd rfl htail
    · rw [head?_append_of_ne_nil _ hdigits]
      exact m.head_ne
  · rw [head?_take, if_neg (by omega)]
    exact m.head_ne
  · rw [head?_take, if_neg (by decide)]
    exact m.head_ne

/-- A number with an exponent has one digit before the point. -/
theorem length_integer_of_exponent {e : ℤ} :
    m.written.exponent = some e → m.written.integer.length = 1 := by
  refine m.written_cases (P := fun w => w.exponent = some e → w.integer.length = 1)
    (fun _ => nofun) (fun _ _ => nofun) (fun _ => nofun) fun h _ => ?_
  exact length_take_of_le (length_pos_iff.mpr h)

theorem value_nonneg : 0 ≤ m.value :=
  mul_nonneg (fracValue_nonneg _) (zpow_nonneg (by norm_num) _)

theorem value_pos (h : m.digits ≠ []) : 0 < m.value := by
  refine mul_pos ?_ (zpow_pos (by norm_num) _)
  have hhead := m.head_ne
  cases hdigits : m.digits with
  | nil => exact absurd hdigits h
  | cons d digits =>
    rw [hdigits] at hhead
    have hd : 0 < d.val := Fin.pos_iff_ne_zero.mpr fun heq => hhead (congrArg some heq)
    have hcast : (0 : ℚ) < d.val := by exact_mod_cast hd
    have htail := fracValue_nonneg digits
    rw [fracValue]
    positivity

end Magnitude

end MindooDB
