import MindooDB.Lib.Comparator

/-!
# Lib/OrdersOn — comparators that order what they are asked about

A comparator need only order the elements of the lists it is used on.  Outside of them it may do as
it likes: it can be replaced by one that orders everything (`OrdersOn.exists_orders`), and no sort or
search of those elements tells the two apart.

A comparator that may give no number at all orders a set if it gives one on all pairs, and the signs
are those of a total preorder (`TotalPreorderOn`).
-/

variable {α β : Type*} {S T : Set α} {cmp cmp' : α → α → ℤ} {l : List α} {k : α}

/-- **A comparator that orders the elements of a set.** -/
structure OrdersOn (S : Set α) (cmp : α → α → ℤ) : Prop where
  swap : ∀ a ∈ S, ∀ b ∈ S, (cmp b a < 0 ↔ 0 < cmp a b)
  trans : ∀ a ∈ S, ∀ b ∈ S, ∀ c ∈ S, cmp a b ≤ 0 → cmp b c ≤ 0 → cmp a c ≤ 0

theorem Orders.ordersOn (h : Orders cmp) (S : Set α) : OrdersOn S cmp :=
  ⟨fun a _ b _ => h.swap a b, fun a _ b _ c _ => h.trans a b c⟩

namespace OrdersOn

/-- Comparing a part. -/
theorem comap (h : OrdersOn S cmp) (f : β → α) :
    OrdersOn (Set.preimage f S) fun a b => cmp (f a) (f b) :=
  ⟨fun a ha b hb => h.swap (f a) ha (f b) hb,
    fun a ha b hb c hc => h.trans (f a) ha (f b) hb (f c) hc⟩

open Classical in
/-- **It extends to one that orders everything**: the rest ties, behind the set. -/
theorem exists_orders (h : OrdersOn S cmp) :
    ∃ cmp' : α → α → ℤ, Orders cmp' ∧ ∀ a ∈ S, ∀ b ∈ S, cmp' a b = cmp a b := by
  refine ⟨fun a b => if a ∈ S then (if b ∈ S then cmp a b else -1) else if b ∈ S then 1 else 0,
    ⟨fun a b => ?_, fun a b c => ?_⟩, fun a ha b hb => by simp only [ha, hb, if_true]⟩
  · by_cases ha : a ∈ S <;> by_cases hb : b ∈ S <;> simp only [ha, hb, if_true, if_false]
    · exact h.swap a ha b hb
    all_goals decide
  · by_cases ha : a ∈ S <;> by_cases hb : b ∈ S <;> by_cases hc : c ∈ S <;>
      simp only [ha, hb, hc, if_true, if_false]
    · exact h.trans a ha b hb c hc
    all_goals omega

/-! ## Sorting and searching -/

/-- A list of the set is sorted by both alike. -/
theorem sortBy_eq (heq : ∀ a ∈ S, ∀ b ∈ S, cmp' a b = cmp a b) (hl : ∀ a ∈ l, a ∈ S) :
    sortBy cmp l = sortBy cmp' l :=
  sortBy_congr (List.pairwise_of_forall_mem_list fun a ha b hb => by rw [heq a (hl a ha) b (hl b hb)])

theorem insertAfter_eq (heq : ∀ a ∈ S, ∀ b ∈ S, cmp' a b = cmp a b) (hl : ∀ a ∈ l, a ∈ S)
    (hk : k ∈ S) : insertAfter cmp k l = insertAfter cmp' k l :=
  orderedInsert_congr fun b hb => by rw [heq b (hl b hb) k hk]

/-- A test of the elements of a list by their index asks about those elements only. -/
theorem any_getElem?_congr {p q : α → Bool} (h : ∀ a ∈ l, p a = q a) :
    (fun i : ℕ => l[i]?.any p) = fun i => l[i]?.any q := by
  funext i
  cases hi : l[i]? with
  | none => rfl
  | some a => exact h a (List.mem_of_getElem? hi)

theorem pairwise_eq (heq : ∀ a ∈ S, ∀ b ∈ S, cmp' a b = cmp a b) (hl : ∀ a ∈ l, a ∈ S)
    (hpairwise : l.Pairwise fun a b => cmp a b ≤ 0) : l.Pairwise fun a b => cmp' a b ≤ 0 :=
  hpairwise.imp_of_mem fun {a b} ha hb hab => by rwa [heq a (hl a ha) b (hl b hb)]

theorem consistent (h : OrdersOn S cmp) (hl : ∀ a ∈ l, a ∈ S) : Consistent cmp l := by
  refine ⟨fun a ha b hb => ?_, fun a ha b hb c hc => h.trans a (hl a ha) b (hl b hb) c (hl c hc)⟩
  have hswap := h.swap a (hl a ha) b (hl b hb)
  omega

/-- The last element of a list is put behind its equals. -/
theorem sortBy_concat (h : OrdersOn S cmp) (hl : ∀ a ∈ l, a ∈ S) (hk : k ∈ S) :
    sortBy cmp (l ++ [k]) = insertAfter cmp k (sortBy cmp l) := by
  obtain ⟨cmp', horders, heq⟩ := h.exists_orders
  have hlk : ∀ a ∈ l ++ [k], a ∈ S := fun a ha => by
    rcases List.mem_append.mp ha with ha | ha
    · exact hl a ha
    · exact List.mem_singleton.mp ha ▸ hk
  rw [sortBy_eq heq hlk, insertAfter_eq heq (fun a ha => hl a (mem_sortBy.mp ha)) hk,
    sortBy_eq heq hl, horders.sortBy_concat]

/-- The binary search inserts as a stable sort does. -/
theorem insertIdx_partitionPoint (h : OrdersOn S cmp) (hl : ∀ a ∈ l, a ∈ S) (hk : k ∈ S)
    (hpairwise : l.Pairwise fun a b => cmp a b ≤ 0) :
    l.insertIdx (partitionPoint (fun mid => l[mid]?.any fun b => cmp b k ≤ 0) l.length 0 l.length) k
      = insertAfter cmp k l := by
  obtain ⟨cmp', horders, heq⟩ := h.exists_orders
  have htest : ∀ a ∈ l, decide (cmp a k ≤ 0) = decide (cmp' a k ≤ 0) := fun a ha => by
    rw [heq a (hl a ha) k hk]
  rw [any_getElem?_congr htest, insertAfter_eq heq hl hk]
  exact horders.insertIdx_partitionPoint (pairwise_eq heq hl hpairwise) k

/-- A stable sort of fewer elements leaves out the others. -/
theorem filter_sortBy (h : OrdersOn S cmp) (hl : ∀ a ∈ l, a ∈ S) (p : α → Bool) :
    (sortBy cmp l).filter p = sortBy cmp (l.filter p) := by
  obtain ⟨cmp', horders, heq⟩ := h.exists_orders
  rw [sortBy_eq heq hl, sortBy_eq heq fun a ha => hl a (List.mem_of_mem_filter ha),
    horders.filter_sortBy]

end OrdersOn

section

variable {α : Type*}

/-- **A total preorder on a set**, by a comparator that may fail. -/
structure TotalPreorderOn (S : Set α) (cmp : α → α → Option ℤ) : Prop where
  defined : ∀ a ∈ S, ∀ b ∈ S, (cmp a b).isSome
  orders : OrdersOn S fun a b => (cmp a b).getD 0

/-- **A result that is a number**, of the sign of another. -/
def AgreesWith (result : Option ℤ) (c : ℤ) : Prop :=
  ∃ r, result = some r ∧ (r < 0 ↔ c < 0) ∧ (0 < r ↔ 0 < c)

theorem agrees_some {r c : ℤ} : AgreesWith (some r) c ↔ (r < 0 ↔ c < 0) ∧ (0 < r ↔ 0 < c) := by
  constructor
  · rintro ⟨r', hr, hsign⟩
    cases hr
    exact hsign
  · exact fun h => ⟨r, rfl, h⟩

theorem agrees_self (r : ℤ) : AgreesWith (some r) r := agrees_some.mpr ⟨Iff.rfl, Iff.rfl⟩

variable {result : Option ℤ}

theorem AgreesWith.isSome {c : ℤ} (h : AgreesWith result c) :
    result.isSome := by
  obtain ⟨r, rfl, -⟩ := h
  rfl

theorem AgreesWith.neg {c : ℤ} (h : AgreesWith result c) :
    AgreesWith (result.map Neg.neg) (-c) := by
  obtain ⟨r, rfl, hneg, hpos⟩ := h
  refine agrees_some.mpr ⟨?_, ?_⟩ <;> omega

/-- The next comparator, where the first one ties. -/
def compareNext (result next : Option ℤ) : Option ℤ :=
  match result with
  | some 0 => next
  | result => result

theorem isSome_of_compareNext {next : Option ℤ} (h : (compareNext result next).isSome) :
    result.isSome := by
  cases result with
  | none => exact h
  | some r => rfl

theorem AgreesWith.next {result next : Option ℤ} {c c' : ℤ} (h : AgreesWith result c)
    (h' : c = 0 → AgreesWith next c') :
    AgreesWith (compareNext result next) (if c ≠ 0 then c else c') := by
  obtain ⟨r, rfl, hneg, hpos⟩ := h
  by_cases hc : c = 0
  · obtain rfl : r = 0 := by omega
    rw [if_neg (not_not.mpr hc)]
    exact h' hc
  · have hr : r ≠ 0 := by omega
    rw [if_pos hc]
    refine ⟨r, ?_, hneg, hpos⟩
    unfold compareNext
    split
    · rename_i heq
      exact absurd (Option.some.inj heq) hr
    · rfl

/-- **Agreement with a comparator that orders everything.** -/
theorem TotalPreorderOn.of_agrees {S : Set α} {cmp : α → α → Option ℤ} {cmp' : α → α → ℤ}
    (h : Orders cmp') (hagrees : ∀ a ∈ S, ∀ b ∈ S, AgreesWith (cmp a b) (cmp' a b)) :
    TotalPreorderOn S cmp where
  defined a ha b hb := (hagrees a ha b hb).isSome
  orders := by
    have hsign : ∀ a ∈ S, ∀ b ∈ S,
        ((cmp a b).getD 0 < 0 ↔ cmp' a b < 0) ∧ (0 < (cmp a b).getD 0 ↔ 0 < cmp' a b) := by
      intro a ha b hb
      obtain ⟨r, hr, hneg, hpos⟩ := hagrees a ha b hb
      rw [hr]
      exact ⟨hneg, hpos⟩
    have hle : ∀ a ∈ S, ∀ b ∈ S, ((cmp a b).getD 0 ≤ 0 ↔ cmp' a b ≤ 0) := by
      intro a ha b hb
      rw [← not_lt, (hsign a ha b hb).2, not_lt]
    refine ⟨fun a ha b hb => ?_, fun a ha b hb c hc hab hbc => ?_⟩
    · rw [(hsign b hb a ha).1, (hsign a ha b hb).2]
      exact h.swap a b
    · rw [hle a ha c hc]
      exact h.trans a b c ((hle a ha b hb).mp hab) ((hle b hb c hc).mp hbc)

/-- What a comparator says of an element and itself. -/
theorem AgreesWith.eq_some_zero {cmp' : α → α → ℤ} (h : Orders cmp') {a : α}
    (hagrees : AgreesWith result (cmp' a a)) : result = some 0 := by
  obtain ⟨r, rfl, hneg, hpos⟩ := hagrees
  have hself := h.self a
  congr 1
  omega

end
