import Mathlib

/-!
# Lib/ReadyOrder — taking the least ready element, again and again

A set `S` with a relation `dep`: `dep x y` says that `x` needs `y`.  An element is **ready** when all
it needs within `S` is done; the **greedy order** takes the least ready element until none is left.
It is unique (`Greedy.unique`), so an algorithm that follows it depends on nothing else; it puts
every element behind what it needs; and on a finite acyclic set it takes everything.

By any relation `lt` that tells which of two ready elements goes first, the greedy order is the
lexicographically least of all lists that extend the needs (`GreedyBy.least`, `GreedyBy.unique`).
-/

namespace ReadyOrder

open List

variable {α : Type*} {S : Set α} {dep : α → α → Prop} {done : Set α}

/-- Whether `x` may be taken next. -/
def Ready (S : Set α) (dep : α → α → Prop) (done : Set α) (x : α) : Prop :=
  x ∈ S ∧ x ∉ done ∧ ∀ y ∈ S, dep x y → y ∈ done

/-- No element needs itself, however indirectly. -/
def Acyclic (dep : α → α → Prop) : Prop := ∀ x, ¬ Relation.TransGen dep x x

theorem Acyclic.mono {dep' : α → α → Prop} (h : Acyclic dep) (hle : ∀ x y, dep' x y → dep x y) :
    Acyclic dep' := fun x hx => h x (Relation.TransGen.mono hle x x hx)

/-- Needing goes down a rank. -/
theorem acyclic_of_rank (rank : α → ℕ) (h : ∀ x y, dep x y → rank y < rank x) : Acyclic dep := by
  have hdown : ∀ {x y}, Relation.TransGen dep x y → rank y < rank x := by
    intro x y hxy
    induction hxy with
    | single hdep => exact h _ _ hdep
    | tail _ hdep ih => exact (h _ _ hdep).trans ih
  exact fun x hx => (hdown hx).false

/-- A nonempty part of a finite acyclic set has an element that needs nothing in that part. -/
theorem exists_minimal {T : Set α} (hT : T.Finite) (hacyclic : Acyclic dep) (hne : T.Nonempty) :
    ∃ x ∈ T, ∀ y ∈ T, ¬ dep x y := by
  have hfin : Finite T := hT
  let needs : T → T → Prop := fun a b => Relation.TransGen dep b a
  have htrans : IsTrans T needs := ⟨fun _ _ _ hab hbc => hbc.trans hab⟩
  have hirrefl : Std.Irrefl needs := ⟨fun a ha => hacyclic a ha⟩
  have hwf : WellFounded needs := Finite.wellFounded_of_trans_of_irrefl needs
  obtain ⟨x, hx⟩ := hne
  obtain ⟨m, -, hmin⟩ := hwf.has_min Set.univ ⟨⟨x, hx⟩, trivial⟩
  exact ⟨m, m.2, fun y hy hdep => hmin ⟨y, hy⟩ trivial (.single hdep)⟩

/-- As long as something is missing, something is ready. -/
theorem exists_ready (hS : S.Finite) (hacyclic : Acyclic fun x y => dep x y ∧ y ∈ S) {x : α}
    (hx : x ∈ S) (hdone : x ∉ done) : ∃ y, Ready S dep done y := by
  obtain ⟨y, ⟨hyS, hydone⟩, hmin⟩ := exists_minimal (hS.subset Set.sdiff_subset) hacyclic
    (T := S \ done) ⟨x, hx, hdone⟩
  refine ⟨y, hyS, hydone, fun z hz hdep => ?_⟩
  by_contra hzdone
  exact hmin z ⟨hz, hzdone⟩ ⟨hdep, hz⟩

variable {lt : α → α → Prop}

/-- **The greedy order** by `lt` of what is left of `S` once `done` is done. -/
inductive GreedyBy (lt : α → α → Prop) (S : Set α) (dep : α → α → Prop) : Set α → List α → Prop
  | stop {done : Set α} (h : ∀ x, ¬Ready S dep done x) : GreedyBy lt S dep done []
  | pick {done : Set α} {x : α} {l : List α} (hx : Ready S dep done x)
      (hmin : ∀ y, Ready S dep done y → y = x ∨ lt x y) (h : GreedyBy lt S dep (insert x done) l) :
      GreedyBy lt S dep done (x :: l)

/-- No element comes before one that it needs. -/
def Extends (dep : α → α → Prop) (l : List α) : Prop := l.Pairwise fun x y => ¬dep x y

namespace GreedyBy

variable {l l' : List α}

section

variable (h : GreedyBy lt S dep done l)

include h

theorem mem {x : α} (hx : x ∈ l) : x ∈ S ∧ x ∉ done := by
  induction h with
  | stop => exact nomatch hx
  | pick hy _ _ ih =>
    rcases mem_cons.mp hx with rfl | hx
    · exact ⟨hy.1, hy.2.1⟩
    · exact (ih hx).imp_right fun hnot hdone => hnot (Set.mem_insert_of_mem _ hdone)

theorem nodup : l.Nodup := by
  induction h with
  | stop => exact nodup_nil
  | pick _ _ htail ih =>
    exact nodup_cons.mpr ⟨fun hx => (htail.mem hx).2 (Set.mem_insert _ _), ih⟩

/-- **What an element needs is done, or comes before it.** -/
theorem extends_needs : Extends dep l := by
  induction h with
  | stop => exact List.Pairwise.nil
  | pick hx _ htail ih =>
    refine pairwise_cons.mpr ⟨fun y hy hdep => ?_, ih⟩
    obtain ⟨hyS, hydone⟩ := htail.mem hy
    exact hydone (Set.mem_insert_of_mem _ (hx.2.2 y hyS hdep))

/-- **On a finite acyclic set everything is taken.** -/
theorem exhausts (hS : S.Finite) (hacyclic : Acyclic fun x y => dep x y ∧ y ∈ S) {x : α}
    (hx : x ∈ S) : x ∈ done ∨ x ∈ l := by
  induction h with
  | stop hstop =>
    refine .inl ?_
    by_contra hdone
    obtain ⟨y, hy⟩ := exists_ready hS hacyclic hx hdone
    exact hstop y hy
  | pick _ _ _ ih =>
    rcases ih with hdone | hlater
    · rcases Set.mem_insert_iff.mp hdone with rfl | hdone
      · exact .inr mem_cons_self
      · exact .inl hdone
    · exact .inr (mem_cons_of_mem _ hlater)

end

/-- **There is only one greedy order.** -/
theorem unique (hasymm : ∀ x y, lt x y → ¬lt y x) (h : GreedyBy lt S dep done l)
    (h' : GreedyBy lt S dep done l') : l = l' := by
  induction h generalizing l' with
  | stop hstop =>
    cases h' with
    | stop => rfl
    | pick hx => exact absurd hx (hstop _)
  | @pick done x l hx hmin _ ih =>
    cases h' with
    | stop hstop => exact absurd hx (hstop _)
    | @pick _ y l' hy hmin' htail =>
      rcases hmin y hy with rfl | hxy
      · rw [ih htail]
      · rcases hmin' x hx with rfl | hyx
        · rw [ih htail]
        · exact absurd hyx (hasymm x y hxy)

/-- **The greedy order is the least** of the lists that extend the needs. -/
theorem least (h : GreedyBy lt S dep done l) (hirrefl : ∀ x ∈ S, ¬dep x x) (hnodup : l'.Nodup)
    (hmem : ∀ x, x ∈ l' ↔ x ∈ S ∧ x ∉ done) (hextends : Extends dep l') :
    l = l' ∨ List.Lex lt l l' := by
  induction h generalizing l' with
  | @stop done hstop =>
    cases l' with
    | nil => exact .inl rfl
    | cons y rest => exact .inr .nil
  | @pick done x l hx hmin _ ih =>
    cases l' with
    | nil => exact nomatch ((hmem x).mpr ⟨hx.1, hx.2.1⟩)
    | cons y rest =>
      obtain ⟨hyrest, hrest⟩ := nodup_cons.mp hnodup
      obtain ⟨hbefore, hextends'⟩ := pairwise_cons.mp hextends
      obtain ⟨hyS, hydone⟩ := (hmem y).mp mem_cons_self
      -- what the first element needs is neither itself nor any later one
      have hy : Ready S dep done y := by
        refine ⟨hyS, hydone, fun z hz hdep => ?_⟩
        by_contra hzdone
        rcases mem_cons.mp ((hmem z).mpr ⟨hz, hzdone⟩) with rfl | hlater
        · exact hirrefl _ hyS hdep
        · exact hbefore z hlater hdep
      rcases hmin y hy with rfl | hlt
      · refine (ih hrest (fun z => ?_) hextends').imp (congrArg _) List.Lex.cons
        rw [Set.mem_insert_iff, not_or]
        constructor
        · intro hz
          obtain ⟨hzS, hzdone⟩ := (hmem z).mp (mem_cons_of_mem _ hz)
          exact ⟨hzS, fun heq => hyrest (heq ▸ hz), hzdone⟩
        · rintro ⟨hzS, hne, hzdone⟩
          exact (mem_cons.mp ((hmem z).mpr ⟨hzS, hzdone⟩)).resolve_left hne
      · exact .inr (.rel hlt)

end GreedyBy

/-- Nothing is less than a sorted list of the same elements. -/
theorem not_lex_of_sorted {sorted l : List α} (hperm : l.Perm sorted)
    (hsorted : sorted.Pairwise fun x y => ¬lt y x) (hirrefl : ∀ x, ¬lt x x) :
    ¬List.Lex lt l sorted := by
  intro hlex
  induction hlex with
  | nil => exact absurd hperm.symm.eq_nil (cons_ne_nil _ _)
  | cons _ ih => exact ih (List.Perm.cons_inv hperm) (pairwise_cons.mp hsorted).2
  | @rel x xs y ys hlt =>
    rcases mem_cons.mp (hperm.subset mem_cons_self) with rfl | hlater
    · exact hirrefl _ hlt
    · exact (pairwise_cons.mp hsorted).1 x hlater hlt

variable [LinearOrder α]

/-- **The greedy order** of what is left of `S` once `done` is done. -/
inductive Greedy (S : Set α) (dep : α → α → Prop) : Set α → List α → Prop
  | stop {done : Set α} (h : ∀ x, ¬ Ready S dep done x) : Greedy S dep done []
  | pick {done : Set α} {x : α} {l : List α} (hx : Ready S dep done x)
      (hmin : ∀ y, Ready S dep done y → x ≤ y) (h : Greedy S dep (insert x done) l) :
      Greedy S dep done (x :: l)

namespace Greedy

variable {l l' : List α}

section

variable (h : Greedy S dep done l)

include h

theorem greedyBy : GreedyBy (· < ·) S dep done l := by
  induction h with
  | stop hstop => exact .stop hstop
  | pick hx hmin _ ih => exact .pick hx (fun y hy => (hmin y hy).eq_or_lt') ih

/-- **There is only one greedy order.** -/
theorem unique (h' : Greedy S dep done l') : l = l' :=
  h.greedyBy.unique (fun _ _ => lt_asymm) h'.greedyBy

theorem mem {x : α} (hx : x ∈ l) : x ∈ S ∧ x ∉ done := h.greedyBy.mem hx

theorem nodup : l.Nodup := h.greedyBy.nodup

/-- **What an element needs is done, or comes before it.** -/
theorem dependency_before {l₁ l₂ : List α} {x y : α} (hl : l = l₁ ++ x :: l₂) (hy : y ∈ S)
    (hdep : dep x y) : y ∈ done ∨ y ∈ l₁ := by
  induction h generalizing l₁ with
  | stop => simp at hl
  | pick hz _ _ ih =>
    rcases l₁ with _ | ⟨w, l₁⟩
    · obtain ⟨rfl, -⟩ := List.cons.inj hl
      exact .inl (hz.2.2 y hy hdep)
    · obtain ⟨rfl, htail⟩ := List.cons.inj hl
      rcases ih htail with hdone | hbefore
      · rcases Set.mem_insert_iff.mp hdone with rfl | hdone
        · exact .inr mem_cons_self
        · exact .inl hdone
      · exact .inr (mem_cons_of_mem _ hbefore)

end

end Greedy

end ReadyOrder
