import MindooDB.Lib.Comparator
import MindooDB.View.Entry

/-!
# View/Comparator — the comparator of sort keys orders

Given that the collations of the runtime order strings (`Runtime.Collates`), the comparator of a
view orders all sort keys (`orders_compare`): values by their types, then within a type, and what is
null last, or first when descending; documents by their columns, then by origin and id.
-/

namespace MindooDB

open ColumnValue Orders

/-- **The collations of the language runtime order** strings. -/
structure Runtime.Collates (env : Runtime) : Prop where
  baseSensitivityCollator : Orders env.baseSensitivityCollator
  defaultCollator : Orders env.defaultCollator
  localeCompare : Orders env.localeCompare

variable {env : Runtime}

theorem orders_differenceSign : Orders differenceSign := by
  have hneg : ∀ a b, differenceSign a b < 0 ↔ a < b := fun a b => by
    rw [differenceSign]
    split
    · simpa
    · split <;> simp_all
  have hpos : ∀ a b, 0 < differenceSign a b ↔ b < a := fun a b => by
    rw [differenceSign]
    rcases lt_trichotomy a b with h | rfl | h
    · simp [h, h.le]
    · simp
    · simp [h, h.not_gt, h.ne']
  refine ⟨fun a b => (hneg b a).trans (hpos a b).symm, fun a b c hab hbc => ?_⟩
  rw [← not_lt, hpos, not_lt] at hab hbc ⊢
  exact hab.trans hbc

/-! ## Values -/

namespace ColumnValue

/-- The class of a value: those that sort as null come last. -/
def sortRank (v : ColumnValue) : ℤ := if v.sortsAsNull then 5 else v.getDataTypeSortOrder

/-- What a value of the first class is compared by. -/
def asNumber : ColumnValue → ℚ
  | number n => n
  | _ => 0

def asTime : ColumnValue → ℤ
  | date time => time
  | _ => 0

def asString : ColumnValue → JSString
  | string s => s
  | _ => ""

theorem getDataTypeSortOrder_le (v : ColumnValue) :
    1 ≤ v.getDataTypeSortOrder ∧ v.getDataTypeSortOrder ≤ 4 := by
  cases v <;> simp [getDataTypeSortOrder]

theorem sortRank_eq_five_iff (v : ColumnValue) : v.sortRank = 5 ↔ v.sortsAsNull = true := by
  have hle := v.getDataTypeSortOrder_le
  rw [sortRank]
  split
  · rename_i h
    simp [h]
  · rename_i h
    simp only [h, Bool.false_eq_true, iff_false]
    omega

end ColumnValue

variable (env) in
/-- How the values of a class are compared. -/
def compareInClass (rank : ℤ) (a b : ColumnValue) : ℤ :=
  if rank = 1 then differenceSign a.asNumber b.asNumber
  else if rank = 2 then differenceSign a.asTime b.asTime
  else if rank = 3 then env.baseSensitivityCollator a.asString b.asString
  else if rank = 4 then env.defaultCollator (env.toText a) (env.toText b)
  else 0

/-- Four classes, each with a comparator of its own. -/
theorem orders_byClass {α : Type*} {cmp₁ cmp₂ cmp₃ cmp₄ : α → α → ℤ} (h₁ : Orders cmp₁)
    (h₂ : Orders cmp₂) (h₃ : Orders cmp₃) (h₄ : Orders cmp₄) (rank : ℤ) :
    Orders fun a b => if rank = 1 then cmp₁ a b else if rank = 2 then cmp₂ a b
      else if rank = 3 then cmp₃ a b else if rank = 4 then cmp₄ a b else 0 := by
  split_ifs
  exacts [h₁, h₂, h₃, h₄, const]

theorem orders_compareInClass (h : env.Collates) (rank : ℤ) : Orders (compareInClass env rank) :=
  orders_byClass (orders_differenceSign.comap asNumber)
    (orders_differenceSign.comap fun v : ColumnValue => (v.asTime : ℚ))
    (h.baseSensitivityCollator.comap asString) (h.defaultCollator.comap env.toText) rank

/-- Within a class, `compareValues` compares as the class does. -/
theorem compareValues_of_rank_eq {a b : ColumnValue} (h : a.sortRank = b.sortRank)
    (descending : Bool) : compareValues env a b descending
      = if descending then -compareInClass env a.sortRank a b
        else compareInClass env a.sortRank a b := by
  have hnull : a.sortsAsNull = b.sortsAsNull := by
    rw [Bool.eq_iff_iff, ← a.sortRank_eq_five_iff, ← b.sortRank_eq_five_iff, h]
  unfold compareValues
  cases ha : a.sortsAsNull with
  | true =>
    have hrank : a.sortRank = 5 := a.sortRank_eq_five_iff.mpr ha
    simp [← hnull, ha, hrank, compareInClass]
  | false =>
    have hb := hnull.symm.trans ha
    rw [sortRank, sortRank, ha, hb] at h
    simp only [Bool.false_eq_true, if_false] at h
    simp only [hb, Bool.false_eq_true, if_false, h, ne_eq, not_true_eq_false]
    have hrank : a.sortRank = b.getDataTypeSortOrder := by
      rw [sortRank, ha]
      exact h
    rw [hrank]
    cases a <;> cases b <;> first
      | rfl
      | simp [getDataTypeSortOrder] at h

/-- Across classes, `compareValues` compares the ranks. -/
theorem compareValues_of_rank_ne (env : Runtime) {a b : ColumnValue} (h : a.sortRank ≠ b.sortRank)
    (descending : Bool) : ∃ d : ℤ, 0 < d ∧ compareValues env a b descending
      = (if descending then -1 else 1) * (if a.sortRank < b.sortRank then -d else d) := by
  have ha := a.getDataTypeSortOrder_le
  have hb := b.getDataTypeSortOrder_le
  unfold compareValues
  simp only [sortRank] at h ⊢
  by_cases hna : a.sortsAsNull = true <;> by_cases hnb : b.sortsAsNull = true <;>
    simp only [hna, hnb, Bool.false_eq_true, if_true, if_false] at h ⊢
  · exact absurd rfl h
  · have hlast : ¬(5 : ℤ) < b.getDataTypeSortOrder := by omega
    refine ⟨1, by decide, ?_⟩
    rw [if_neg hlast]
    cases descending <;> rfl
  · have hlast : a.getDataTypeSortOrder < 5 := by omega
    refine ⟨1, by decide, ?_⟩
    rw [if_pos hlast]
    cases descending <;> rfl
  · have hpos : 0 < |a.getDataTypeSortOrder - b.getDataTypeSortOrder| := abs_pos.mpr (by omega)
    refine ⟨_, hpos, ?_⟩
    rw [if_pos h]
    congr 1
    split
    · rw [abs_of_neg (by omega)]
      omega
    · rw [abs_of_nonneg (by omega)]

/-- **Values are ordered.** -/
theorem orders_compareValues (h : env.Collates) (descending : Bool) :
    Orders fun a b => compareValues env a b descending := by
  cases descending with
  | false =>
    refine of_rank sortRank (orders_compareInClass h) (fun a b hlt => ?_)
      (fun a b hgt => ?_) fun a b heq => compareValues_of_rank_eq heq false
    · obtain ⟨d, hd, heq⟩ := compareValues_of_rank_ne env hlt.ne false
      rw [heq, if_pos hlt]
      simpa using hd
    · obtain ⟨d, hd, heq⟩ := compareValues_of_rank_ne env hgt.ne' false
      rw [heq, if_neg hgt.not_gt]
      simpa using hd
  | true =>
    have hinner : ∀ rank, Orders fun a b => -compareInClass env (-rank) a b := fun rank =>
      (orders_compareInClass h (-rank)).reverse
    refine of_rank (fun v => -v.sortRank) hinner (fun a b hlt => ?_)
      (fun a b hgt => ?_) fun a b heq => ?_
    · have hgt := neg_lt_neg_iff.mp hlt
      obtain ⟨d, hd, heq⟩ := compareValues_of_rank_ne env hgt.ne' true
      rw [heq, if_neg hgt.not_gt]
      simpa using hd
    · have hlt := neg_lt_neg_iff.mp hgt
      obtain ⟨d, hd, heq⟩ := compareValues_of_rank_ne env hlt.ne true
      rw [heq, if_pos hlt]
      simpa using hd
    · simp only [neg_neg]
      exact compareValues_of_rank_eq (neg_inj.mp heq) true

/-! ## Sort keys -/

namespace ViewEntrySortKeyComparator

variable (cmp : ViewEntrySortKeyComparator)

/-- The lowest origin, the others, the highest. -/
def originRank (key : ViewEntrySortKey) : ℤ :=
  if key.origin = LOW_ORIGIN then 0 else if key.origin = HIGH_ORIGIN then 2 else 1

theorem orders_compareOriginAndDocId (h : env.Collates) :
    Orders (compareOriginAndDocId env) := by
  have hothers : Orders fun a b : ViewEntrySortKey =>
      if env.localeCompare a.origin b.origin ≠ 0 then env.localeCompare a.origin b.origin
      else env.localeCompare a.docId b.docId :=
    (h.localeCompare.comap ViewEntrySortKey.origin).lex
      (h.localeCompare.comap ViewEntrySortKey.docId)
  have hinner : ∀ rank : ℤ, Orders (if rank = 1 then fun a b : ViewEntrySortKey =>
      if env.localeCompare a.origin b.origin ≠ 0 then env.localeCompare a.origin b.origin
      else env.localeCompare a.docId b.docId else fun _ _ => 0) := fun rank => by
    split
    · exact hothers
    · exact const
  have hne : HIGH_ORIGIN ≠ LOW_ORIGIN := by decide
  refine of_rank originRank hinner (fun a b hlt => ?_) (fun a b hgt => ?_)
    fun a b heq => ?_
  all_goals
    simp only [originRank, compareOriginAndDocId] at *
    by_cases ha : a.origin = LOW_ORIGIN <;> by_cases hb : b.origin = LOW_ORIGIN <;>
      by_cases ha' : a.origin = HIGH_ORIGIN <;> by_cases hb' : b.origin = HIGH_ORIGIN <;>
      simp_all

/-- The value that a category is sorted by. -/
def categoryValue (key : ViewEntrySortKey) : ColumnValue := key.values.head?.getD .null

theorem compareCategories_eq (a b : ViewEntrySortKey) : cmp.compareCategories env a b
    = if (categoryValue a).isNullish then
        if (categoryValue b).isNullish then compareOriginAndDocId env a b
        else if cmp.categoryOrderDescending then -1 else 1
      else if (categoryValue b).isNullish then (if cmp.categoryOrderDescending then 1 else -1)
      else if compareValues env (categoryValue a) (categoryValue b) cmp.categoryOrderDescending ≠ 0
        then compareValues env (categoryValue a) (categoryValue b) cmp.categoryOrderDescending
      else compareOriginAndDocId env a b := rfl

theorem orders_compareCategories (h : env.Collates) : Orders (cmp.compareCategories env) := by
  have hvalues : Orders fun a b : ViewEntrySortKey =>
      if compareValues env (categoryValue a) (categoryValue b) cmp.categoryOrderDescending ≠ 0 then
        compareValues env (categoryValue a) (categoryValue b) cmp.categoryOrderDescending
      else compareOriginAndDocId env a b :=
    ((orders_compareValues h cmp.categoryOrderDescending).comap categoryValue).lex
      (orders_compareOriginAndDocId h)
  have hinner : ∀ rank : ℤ, Orders (if rank = 0 then fun a b : ViewEntrySortKey =>
      if compareValues env (categoryValue a) (categoryValue b) cmp.categoryOrderDescending ≠ 0 then
        compareValues env (categoryValue a) (categoryValue b) cmp.categoryOrderDescending
      else compareOriginAndDocId env a b else compareOriginAndDocId env) := fun rank => by
    split
    · exact hvalues
    · exact orders_compareOriginAndDocId h
  -- what is null comes last, or first when descending
  refine of_rank (fun key => if (categoryValue key).isNullish then
    (if cmp.categoryOrderDescending then -1 else 1) else 0) hinner (fun a b hlt => ?_)
    (fun a b hgt => ?_) fun a b heq => ?_
  all_goals
    rw [compareCategories_eq]
    cases ha : (categoryValue a).isNullish <;> cases hb : (categoryValue b).isNullish <;>
      cases hd : cmp.categoryOrderDescending <;> simp_all

theorem orders_compareColumns (h : env.Collates) (descending : List Bool) (n : ℕ) :
    Orders (compareColumns env descending n) := by
  induction n generalizing descending with
  | zero => exact const
  | succ n ih =>
    exact ((orders_compareValues h (descending.head?.getD false)).comap
      fun values : List ColumnValue => values.head?.getD .null).lex
        ((ih descending.tail).comap List.tail)

/-- Columns that neither of the two has are tied. -/
theorem compareColumns_eq_of_le {descending : List Bool} {values₁ values₂ : List ColumnValue}
    {n m : ℕ} (hm : max values₁.length values₂.length ≤ m) (hmn : m ≤ n) :
    compareColumns env descending n values₁ values₂
      = compareColumns env descending m values₁ values₂ := by
  induction m generalizing n descending values₁ values₂ with
  | zero =>
    obtain ⟨h₁, h₂⟩ := max_le_iff.mp hm
    obtain rfl := List.length_eq_zero_iff.mp (Nat.le_zero.mp h₁)
    obtain rfl := List.length_eq_zero_iff.mp (Nat.le_zero.mp h₂)
    clear hm hmn h₁ h₂
    induction n generalizing descending with
    | zero => rfl
    | succ n ih =>
      rw [compareColumns]
      exact ih
  | succ m ih =>
    obtain ⟨n, rfl⟩ : ∃ n', n = n' + 1 := ⟨n - 1, by omega⟩
    rw [compareColumns, compareColumns, ih _ (Nat.le_of_succ_le_succ hmn)]
    rw [List.length_tail, List.length_tail]
    omega

theorem orders_compareDocuments (h : env.Collates) : Orders (cmp.compareDocuments env) := by
  have hcolumns : Orders fun a b : ViewEntrySortKey =>
      compareColumns env cmp.docOrderPerColumnDescending (max a.values.length b.values.length)
        a.values b.values :=
    of_bounded (fun key : ViewEntrySortKey => key.values.length)
      (fun n => (orders_compareColumns h cmp.docOrderPerColumnDescending n).comap
        ViewEntrySortKey.values)
      fun n a b ha hb => (compareColumns_eq_of_le (le_refl _) (max_le ha hb)).symm
  exact hcolumns.lex (orders_compareOriginAndDocId h)

/-- **The comparator orders all sort keys.** -/
theorem orders_compare (h : env.Collates) : Orders (cmp.compare env) := by
  have hinner : ∀ rank : ℤ, Orders
      (if rank = (if cmp.categoriesOnTopOfDocuments then 0 else 2) then cmp.compareCategories env
        else cmp.compareDocuments env) := fun rank => by
    by_cases hrank : rank = if cmp.categoriesOnTopOfDocuments then 0 else 2
    · rw [if_pos hrank]
      exact orders_compareCategories cmp h
    · rw [if_neg hrank]
      exact orders_compareDocuments cmp h
  refine of_rank (fun key => if key.isCategory then
    (if cmp.categoriesOnTopOfDocuments then 0 else 2) else 1) hinner (fun a b hlt => ?_)
    (fun a b hgt => ?_) fun a b heq => ?_
  all_goals
    simp only [compare] at *
    cases ha : a.isCategory <;> cases hb : b.isCategory <;>
      cases htop : cmp.categoriesOnTopOfDocuments <;> simp_all

end ViewEntrySortKeyComparator

end MindooDB
