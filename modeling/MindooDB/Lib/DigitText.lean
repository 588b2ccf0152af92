import Mathlib

/-!
# Lib/DigitText — runs of digits in texts

Texts are compared unit by unit.  A run of digits is ended by a unit that is no digit, lower than
all of them or higher (`digits_append_lt_iff`), and two texts are equal only if their runs are
(`digits_append_inj`).  Digits are read before the point (`natValue`) and behind it (`fracValue`).
-/

/-! ## Runs -/

section Ends

variable {α υ : Type*} [LinearOrder υ]

/-- What follows a run begins below all digits, or there is nothing. -/
def EndsLow (digit : α → υ) (rest : List υ) : Prop := ∀ unit ∈ rest.head?, ∀ d, unit < digit d

/-- What follows a run begins above all digits. -/
def EndsHigh (digit : α → υ) (rest : List υ) : Prop := ∃ unit ∈ rest.head?, ∀ d, digit d < unit

theorem nil_lt_digits_iff {digit : α → υ} {s t : List υ} {d : α}
    (hs : EndsLow digit s ∨ EndsHigh digit s) : s < digit d :: t ↔ EndsLow digit s := by
  cases s with
  | nil =>
    exact ⟨fun _ _ hunit => absurd hunit (Option.not_mem_none _), fun _ => List.nil_lt_cons _ _⟩
  | cons unit s =>
    rw [List.cons_lt_cons_iff]
    constructor
    · intro h
      refine hs.resolve_right ?_
      rintro ⟨unit', hunit, hhigh⟩
      cases hunit
      rcases h with h | ⟨h, -⟩
      · exact lt_asymm h (hhigh d)
      · exact (hhigh d).ne' h
    · exact fun h => .inl (h unit rfl d)

theorem digits_lt_nil_iff {digit : α → υ} {s t : List υ} {d : α}
    (ht : EndsLow digit t ∨ EndsHigh digit t) : digit d :: s < t ↔ EndsHigh digit t := by
  cases t with
  | nil =>
    refine ⟨fun h => absurd h (List.not_lt_nil _), ?_⟩
    rintro ⟨unit, hunit, -⟩
    cases hunit
  | cons unit t =>
    rw [List.cons_lt_cons_iff]
    constructor
    · intro h
      refine ht.resolve_left fun hlow => ?_
      have hunit := hlow unit rfl d
      rcases h with h | ⟨h, -⟩
      · exact lt_asymm h hunit
      · exact hunit.ne' h
    · rintro ⟨unit', hunit, hhigh⟩
      cases hunit
      exact .inl (hhigh d)

end Ends

section Runs

variable {α υ : Type*} [LinearOrder α] [LinearOrder υ]

/-- **A run comes before another**: at a digit, by what follows, or where one of the two ends. -/
def RunBefore (a b : List α) (endsLow endsHigh next : Prop) : Prop :=
  a < b.take a.length ∨ a = b ∧ next ∨ a <+: b ∧ a ≠ b ∧ endsLow ∨ b <+: a ∧ a ≠ b ∧ endsHigh

/-- **Two runs with what follows them.** -/
theorem digits_append_lt_iff {digit : α → υ} (hdigit : StrictMono digit) {s t : List υ}
    (hs : EndsLow digit s ∨ EndsHigh digit s) (ht : EndsLow digit t ∨ EndsHigh digit t)
    (a b : List α) : a.map digit ++ s < b.map digit ++ t ↔
      RunBefore a b (EndsLow digit s) (EndsHigh digit t) (s < t) := by
  induction a generalizing b with
  | nil =>
    cases b with
    | nil => simp [RunBefore]
    | cons d b =>
      rw [List.map_nil, List.nil_append, List.map_cons, List.cons_append, nil_lt_digits_iff hs]
      simp [RunBefore]
  | cons c a ih =>
    cases b with
    | nil =>
      rw [List.map_cons, List.cons_append, List.map_nil, List.nil_append, digits_lt_nil_iff ht]
      simp [RunBefore]
    | cons d b =>
      rw [List.map_cons, List.cons_append, List.map_cons, List.cons_append, List.cons_lt_cons_iff,
        hdigit.lt_iff_lt, hdigit.injective.eq_iff, ih]
      unfold RunBefore
      rw [List.length_cons, List.take_succ_cons, List.cons_lt_cons_iff]
      by_cases hcd : c = d
      · subst hcd
        simp [List.cons_prefix_cons]
      · simp [List.cons_prefix_cons, hcd, Ne.symm hcd]

/-- **The runs of equal texts are equal.** -/
theorem digits_append_inj {digit : α → υ} (hdigit : StrictMono digit) {s t : List υ}
    (hs : EndsLow digit s ∨ EndsHigh digit s) (ht : EndsLow digit t ∨ EndsHigh digit t)
    {a b : List α} (h : a.map digit ++ s = b.map digit ++ t) : a = b ∧ s = t := by
  have hne {u v : List υ} {d : α} (hu : EndsLow digit u ∨ EndsHigh digit u)
      (heq : u = digit d :: v) : False := by
    subst heq
    rcases hu with hlow | ⟨unit, hunit, hhigh⟩
    · exact lt_irrefl _ (hlow _ rfl d)
    · cases hunit
      exact lt_irrefl _ (hhigh d)
  induction a generalizing b with
  | nil =>
    cases b with
    | nil => exact ⟨rfl, h⟩
    | cons d b => exact (hne hs h).elim
  | cons c a ih =>
    cases b with
    | nil => exact (hne ht h.symm).elim
    | cons d b =>
      rw [List.map_cons, List.cons_append, List.map_cons, List.cons_append, List.cons.injEq,
        hdigit.injective.eq_iff] at h
      obtain ⟨rfl, h⟩ := h
      obtain ⟨rfl, hrest⟩ := ih h
      exact ⟨rfl, hrest⟩

/-- The run that does not differ at a digit. -/
theorem runBefore_true_iff (a b : List α) :
    RunBefore a b True True True ↔ ¬b < a.take b.length := by
  induction a generalizing b with
  | nil => cases b <;> simp [RunBefore]
  | cons c a ih =>
    cases b with
    | nil => simp [RunBefore]
    | cons d b =>
      have htail := ih b
      unfold RunBefore at htail ⊢
      rw [List.length_cons, List.take_succ_cons, List.cons_lt_cons_iff, List.length_cons,
        List.take_succ_cons, List.cons_lt_cons_iff]
      rcases lt_trichotomy c d with hlt | rfl | hgt
      · simp [hlt, hlt.not_gt, hlt.ne']
      · simpa [List.cons_prefix_cons] using htail
      · simp [List.cons_prefix_cons, hgt, hgt.not_gt, hgt.ne, hgt.ne']

/-- Runs that are ended below all digits. -/
theorem runBefore_low_iff (a b : List α) (next : Prop) :
    RunBefore a b True False next ↔ a < b ∨ a = b ∧ next := by
  induction a generalizing b with
  | nil => cases b <;> simp [RunBefore]
  | cons c a ih =>
    cases b with
    | nil => simp [RunBefore]
    | cons d b =>
      have htail := ih b
      unfold RunBefore at htail ⊢
      rw [List.length_cons, List.take_succ_cons, List.cons_lt_cons_iff, List.cons_lt_cons_iff]
      rcases lt_trichotomy c d with hlt | rfl | hgt
      · simp [hlt]
      · simpa [List.cons_prefix_cons] using htail
      · simp [List.cons_prefix_cons, hgt.not_gt, hgt.ne, hgt.ne']

theorem runBefore_false_iff (a b : List α) :
    RunBefore a b False False False ↔ a < b.take a.length := by
  simp [RunBefore]

theorem list_cons_le_cons_iff {c d : α} {a b : List α} :
    c :: a ≤ d :: b ↔ c < d ∨ c = d ∧ a ≤ b := by
  rw [← not_lt, List.cons_lt_cons_iff, ← not_lt (a := b)]
  rcases lt_trichotomy c d with hlt | rfl | hgt
  · simp [hlt, hlt.not_gt, hlt.ne']
  · simp
  · simp [hgt, hgt.not_gt, hgt.ne']

/-- A run that is shorter comes before another one exactly if it is not above its beginning. -/
theorem lt_iff_le_take {a b : List α} (h : a.length < b.length) :
    a < b ↔ a ≤ b.take a.length := by
  induction a generalizing b with
  | nil =>
    cases b with
    | nil => exact absurd h (lt_irrefl _)
    | cons d b => simp
  | cons c a ih =>
    cases b with
    | nil => exact nomatch h
    | cons d b =>
      rw [List.length_cons, List.take_succ_cons, List.cons_lt_cons_iff, list_cons_le_cons_iff,
        ih (Nat.lt_of_succ_lt_succ h)]

end Runs

/-! ## Values -/

/-- Digits before the point. -/
def natValue : List (Fin 10) → ℕ
  | [] => 0
  | d :: digits => d.val * 10 ^ digits.length + natValue digits

/-- Digits behind the point. -/
def fracValue : List (Fin 10) → ℚ
  | [] => 0
  | d :: digits => (d.val + fracValue digits) / 10

theorem natValue_lt (digits : List (Fin 10)) : natValue digits < 10 ^ digits.length := by
  induction digits with
  | nil => exact Nat.one_pos
  | cons d digits ih =>
    rw [natValue, List.length_cons, pow_succ]
    have hd : d.val + 1 ≤ 10 := d.isLt
    nlinarith

theorem le_natValue_cons {d : Fin 10} (hd : d ≠ 0) (digits : List (Fin 10)) :
    10 ^ digits.length ≤ natValue (d :: digits) := by
  have hpos : 0 < d.val := Fin.pos_iff_ne_zero.mpr hd
  rw [natValue]
  nlinarith [Nat.pow_pos (n := digits.length) (show 0 < 10 by decide)]

theorem natValue_append_singleton (digits : List (Fin 10)) (d : Fin 10) :
    natValue (digits ++ [d]) = 10 * natValue digits + d.val := by
  induction digits with
  | nil => simp [natValue]
  | cons c digits ih =>
    rw [List.cons_append, natValue, natValue, ih, List.length_append, List.length_singleton,
      pow_succ]
    ring

/-- **Digits of one length** are ordered as their values are. -/
theorem natValue_lt_of_lt {a b : List (Fin 10)} (hlength : a.length = b.length) (h : a < b) :
    natValue a < natValue b := by
  induction a generalizing b with
  | nil => exact absurd h (List.length_eq_zero_iff.mp hlength.symm ▸ lt_irrefl _)
  | cons c a ih =>
    cases b with
    | nil => exact absurd h (List.not_lt_nil _)
    | cons d b =>
      have htail : a.length = b.length := Nat.succ_injective hlength
      rw [natValue, natValue, htail]
      rcases List.cons_lt_cons_iff.mp h with hlt | ⟨rfl, hlt⟩
      · have hvalue := natValue_lt a
        rw [htail] at hvalue
        have hd : c.val + 1 ≤ d.val := hlt
        nlinarith
      · have hvalue := ih htail hlt
        omega

theorem fracValue_nonneg (digits : List (Fin 10)) : 0 ≤ fracValue digits := by
  induction digits with
  | nil => exact le_refl _
  | cons d digits ih =>
    rw [fracValue]
    positivity

theorem fracValue_lt_one (digits : List (Fin 10)) : fracValue digits < 1 := by
  induction digits with
  | nil => exact zero_lt_one
  | cons d digits ih =>
    have hd : (d.val : ℚ) ≤ 9 := by exact_mod_cast Nat.le_of_lt_succ d.isLt
    rw [fracValue]
    linarith

theorem fracValue_le_of_le {a b : List (Fin 10)} (h : a ≤ b) : fracValue a ≤ fracValue b := by
  induction a generalizing b with
  | nil => exact fracValue_nonneg b
  | cons c a ih =>
    cases b with
    | nil => exact absurd h (not_le_of_gt (List.nil_lt_cons _ _))
    | cons d b =>
      rw [fracValue, fracValue]
      rcases list_cons_le_cons_iff.mp h with hlt | ⟨rfl, hle⟩
      · have hd : (c.val : ℚ) + 1 ≤ d.val := by exact_mod_cast hlt
        have hone := fracValue_lt_one a
        have hzero := fracValue_nonneg b
        linarith
      · have htail := ih hle
        linarith

theorem fracValue_append (a b : List (Fin 10)) :
    fracValue (a ++ b) * 10 ^ a.length = natValue a + fracValue b := by
  induction a with
  | nil => simp [natValue]
  | cons d a ih =>
    rw [List.cons_append, fracValue, natValue, List.length_cons, pow_succ]
    push_cast
    linear_combination ih

theorem fracValue_replicate_zero (n : ℕ) : fracValue (List.replicate n 0) = 0 := by
  induction n with
  | zero => rfl
  | succ n ih =>
    rw [List.replicate_succ, fracValue, ih]
    norm_num

theorem fracValue_append_zeros (digits : List (Fin 10)) (n : ℕ) :
    fracValue (digits ++ List.replicate n 0) = fracValue digits := by
  induction digits with
  | nil => exact fracValue_replicate_zero n
  | cons d digits ih => rw [List.cons_append, fracValue, fracValue, ih]

/-- **Two numbers with a point**: the lower one has no more digits before it, and with as many of
them, its digits come first. -/
theorem runs_of_value_lt {a b fa fb : List (Fin 10)} (ha : a.tail ≠ [] → a.head? ≠ some 0)
    (hb : b ≠ []) (h : natValue a + fracValue fa < natValue b + fracValue fb) :
    a.length ≤ b.length ∧ (a.length = b.length → a < b ∨ a = b ∧ fa < fb) := by
  have hone := fracValue_lt_one fb
  have hzero := fracValue_nonneg fa
  constructor
  · by_contra hlt
    cases a with
    | nil => exact hlt (Nat.zero_le _)
    | cons d a =>
      have htail : a ≠ [] := by
        rintro rfl
        have hpos := List.length_pos_iff.mpr hb
        simp only [List.length_singleton] at hlt
        omega
      have hd : d ≠ 0 := fun heq => ha htail (congrArg some heq)
      have hlow := le_natValue_cons hd a
      have hhigh := natValue_lt b
      have hpow : 10 ^ b.length ≤ 10 ^ a.length := by
        refine Nat.pow_le_pow_right (by decide) ?_
        simp only [List.length_cons] at hlt
        omega
      have hvalues : natValue b + 1 ≤ natValue (d :: a) := by omega
      have hcast : (natValue b : ℚ) + 1 ≤ natValue (d :: a) := by exact_mod_cast hvalues
      linarith
  · intro hlength
    by_contra hnot
    rw [not_or, not_lt] at hnot
    obtain ⟨hle, hsame⟩ := hnot
    rcases hle.lt_or_eq with hlt | rfl
    · have hvalues := Nat.succ_le_of_lt (natValue_lt_of_lt hlength.symm hlt)
      have hcast : (natValue b : ℚ) + 1 ≤ natValue a := by exact_mod_cast hvalues
      linarith
    · have hfraction := fracValue_le_of_le (not_lt.mp fun hlt => hsame ⟨rfl, hlt⟩)
      linarith

/-! ## The digits of a number -/

instance neZero_ten : NeZero 10 := ⟨by decide⟩

def decimalDigits (n : ℕ) : List (Fin 10) := ((Nat.digits 10 n).map (Fin.ofNat 10)).reverse

theorem natValue_decimalDigits (n : ℕ) : natValue (decimalDigits n) = n := by
  have hlist : ∀ l : List ℕ, (∀ d ∈ l, d < 10) →
      natValue ((l.map (Fin.ofNat 10)).reverse) = Nat.ofDigits 10 l := by
    intro l hl
    induction l with
    | nil => rfl
    | cons d l ih =>
      have hd := Nat.mod_eq_of_lt (hl d List.mem_cons_self)
      rw [List.map_cons, List.reverse_cons, natValue_append_singleton,
        ih fun e he => hl e (List.mem_cons_of_mem d he), Nat.ofDigits_cons, Fin.val_ofNat, hd]
      omega
  rw [decimalDigits, hlist _ fun d hd => Nat.digits_lt_base (by decide) hd, Nat.ofDigits_digits]
