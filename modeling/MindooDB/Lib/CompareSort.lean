import Mathlib

/-!
# Lib/CompareSort — sorting by a comparator

`sortBy cmp` is the stable sort of a list by a comparator returning a number, as
`Array.prototype.sort` takes it.  A sort has to make sense of `cmp` only on the elements it is
given, so the hypotheses below are about those: `Consistent cmp l` says that on `l` the comparator
is a total preorder, `Separates cmp l` that it ties no two different elements.
-/

variable {α : Type*}

/-- **The stable sort by a comparator.** -/
def sortBy (cmp : α → α → ℤ) (l : List α) : List α := l.insertionSort fun a b => cmp a b ≤ 0

/-- On the elements of `l`, the comparator is a total preorder. -/
structure Consistent (cmp : α → α → ℤ) (l : List α) : Prop where
  total : ∀ a ∈ l, ∀ b ∈ l, cmp a b ≤ 0 ∨ cmp b a ≤ 0
  trans : ∀ a ∈ l, ∀ b ∈ l, ∀ c ∈ l, cmp a b ≤ 0 → cmp b c ≤ 0 → cmp a c ≤ 0

/-- On the elements of `l`, the comparator ties only equal ones. -/
def Separates (cmp : α → α → ℤ) (l : List α) : Prop :=
  ∀ a ∈ l, ∀ b ∈ l, cmp a b ≤ 0 → cmp b a ≤ 0 → a = b

variable {cmp : α → α → ℤ} {l l' : List α}

theorem Consistent.of_subset (h : Consistent cmp l) (hl : l' ⊆ l) : Consistent cmp l' :=
  ⟨fun a ha b hb => h.total a (hl ha) b (hl hb),
    fun a ha b hb c hc => h.trans a (hl ha) b (hl hb) c (hl hc)⟩

theorem Separates.of_subset (h : Separates cmp l) (hl : l' ⊆ l) : Separates cmp l' :=
  fun a ha b hb => h a (hl ha) b (hl hb)

/-- `while (lo < hi)`, halving the range between `lo` and `hi` by whether its middle is `before`. -/
def partitionPoint (before : ℕ → Bool) : ℕ → ℕ → ℕ → ℕ
  | 0, lo, _ => lo
  | fuel + 1, lo, hi =>
    if lo < hi then
      let mid := (lo + hi) / 2
      if before mid then partitionPoint before fuel (mid + 1) hi
      else partitionPoint before fuel lo mid
    else lo

theorem partitionPoint_le (before : ℕ → Bool) {fuel lo hi : ℕ} (h : lo ≤ hi) :
    partitionPoint before fuel lo hi ≤ hi := by
  induction fuel generalizing lo hi with
  | zero => exact h
  | succ fuel ih =>
    rw [partitionPoint]
    split
    · simp only
      split
      · exact ih (by omega)
      · exact (ih (by omega)).trans (by omega)
    · exact h

theorem perm_sortBy (cmp : α → α → ℤ) (l : List α) : (sortBy cmp l).Perm l :=
  List.perm_insertionSort _ l

@[simp] theorem mem_sortBy {a : α} : a ∈ sortBy cmp l ↔ a ∈ l := (perm_sortBy cmp l).mem_iff

theorem pairwise_orderedInsert {r : α → α → Prop} [DecidableRel r] {a : α} {l : List α}
    (hl : l.Pairwise r) (htot : ∀ b ∈ l, r a b ∨ r b a)
    (htrans : ∀ b ∈ l, ∀ c ∈ l, r a b → r b c → r a c) : (l.orderedInsert r a).Pairwise r := by
  induction l with
  | nil => exact List.pairwise_singleton r a
  | cons b l ih =>
    obtain ⟨hb, hl'⟩ := List.pairwise_cons.mp hl
    rw [List.orderedInsert_cons]
    split
    · rename_i hab
      refine List.pairwise_cons.mpr ⟨fun c hc => ?_, hl⟩
      rcases List.mem_cons.mp hc with rfl | hc'
      · exact hab
      · exact htrans b (by simp) c (by simp [hc']) hab (hb c hc')
    · rename_i hab
      have hba : r b a := (htot b (by simp)).resolve_left hab
      refine List.pairwise_cons.mpr ⟨fun c hc => ?_, ih hl' (fun c hc => htot c (by simp [hc]))
        fun c hc d hd => htrans c (by simp [hc]) d (by simp [hd])⟩
      rcases (List.mem_orderedInsert r).mp hc with rfl | hc'
      · exact hba
      · exact hb c hc'

theorem orderedInsert_congr {r r' : α → α → Prop} [DecidableRel r] [DecidableRel r'] {a : α}
    {l : List α} (h : ∀ b ∈ l, r a b ↔ r' a b) : l.orderedInsert r a = l.orderedInsert r' a := by
  induction l with
  | nil => rfl
  | cons b l ih =>
    rw [List.orderedInsert_cons, List.orderedInsert_cons, ih fun c hc => h c (by simp [hc])]
    exact if_congr (h b (by simp)) rfl rfl

/-- **The sort asks about pairs of elements only**, never about an element and itself. -/
theorem sortBy_congr {cmp' : α → α → ℤ}
    (h : l.Pairwise fun a b => cmp a b ≤ 0 ↔ cmp' a b ≤ 0) : sortBy cmp l = sortBy cmp' l := by
  induction l with
  | nil => rfl
  | cons a l ih =>
    obtain ⟨ha, hl⟩ := List.pairwise_cons.mp h
    have hrest : l.insertionSort (fun a b => cmp a b ≤ 0) = l.insertionSort fun a b => cmp' a b ≤ 0 :=
      ih hl
    rw [sortBy, sortBy, List.insertionSort_cons, List.insertionSort_cons, hrest]
    exact orderedInsert_congr fun b hb => ha b ((List.mem_insertionSort _).mp hb)

/-- **A consistent comparator sorts.** -/
theorem pairwise_sortBy (h : Consistent cmp l) :
    (sortBy cmp l).Pairwise fun a b => cmp a b ≤ 0 := by
  induction l with
  | nil => exact List.Pairwise.nil
  | cons a l ih =>
    refine pairwise_orderedInsert (ih (h.of_subset (List.subset_cons_self a l)))
      (fun b hb => ?_) fun b hb c hc => ?_
    · exact h.total a (by simp) b (by simp [mem_sortBy.mp hb])
    · exact h.trans a (by simp) b (by simp [mem_sortBy.mp hb]) c (by simp [mem_sortBy.mp hc])

/-- A sorted arrangement of `l` *is* its sort, when nothing ties. -/
theorem eq_sortBy_of_pairwise (h : Consistent cmp l) (hs : Separates cmp l) (hp : l'.Perm l)
    (hl' : l'.Pairwise fun a b => cmp a b ≤ 0) : l' = sortBy cmp l :=
  List.Perm.eq_of_pairwise
    (fun a b ha hb => hs a (hp.mem_iff.mp ha) b (mem_sortBy.mp hb)) hl' (pairwise_sortBy h)
    (hp.trans (perm_sortBy cmp l).symm)

/-- **Without ties the sort does not depend on the arrangement.** -/
theorem sortBy_eq_of_perm (h : Consistent cmp l) (hs : Separates cmp l) (hp : l'.Perm l) :
    sortBy cmp l' = sortBy cmp l :=
  eq_sortBy_of_pairwise h hs ((perm_sortBy cmp l').trans hp)
    (pairwise_sortBy (h.of_subset fun _ ha => hp.mem_iff.mp ha))

/-- **Filtering commutes with sorting**, when nothing ties. -/
theorem filter_sortBy (h : Consistent cmp l) (hs : Separates cmp l) (p : α → Bool) :
    (sortBy cmp l).filter p = sortBy cmp (l.filter p) :=
  eq_sortBy_of_pairwise (h.of_subset List.filter_sublist.subset)
    (hs.of_subset List.filter_sublist.subset) ((perm_sortBy cmp l).filter p) ((pairwise_sortBy h).filter p)
