import Mathlib

/-!
# Lib/Forest — pre-order listings of a tree

A tree given by the ordered children of its vertices.  `preorder visible expanded e` lists `e` and
below it what can be reached through visible, expanded vertices, parents first; no vertex is listed
twice (`nodup_preorder`).
-/

/-- **An ordered forest of finite height**; a vertex is the child of one parent only. -/
structure Forest (α : Type*) where
  children : α → List α
  parent : α → Option α
  height : α → ℕ
  parent_of_mem : ∀ {p c}, c ∈ children p → parent c = some p
  nodup_children : ∀ p, (children p).Nodup
  height_lt : ∀ {p c}, c ∈ children p → height c < height p

namespace Forest

open List

variable {α : Type*} (f : Forest α)

/-- The vertices at or below one. -/
def Descends : α → α → Prop := Relation.ReflTransGen fun p c => c ∈ f.children p

variable {f}

variable {p : α}

theorem Descends.height_le {x : α} (h : f.Descends p x) : f.height x ≤ f.height p := by
  induction h with
  | refl => exact le_rfl
  | tail _ hc ih => exact (f.height_lt hc).le.trans ih

/-- No child lies below its sibling. -/
theorem eq_of_descends_child {p c d : α} (hc : c ∈ f.children p) (hd : d ∈ f.children p)
    (h : f.Descends c d) : c = d := by
  rcases Relation.ReflTransGen.cases_tail h with h | ⟨q, hq, hdq⟩
  · exact h.symm
  · have hqp : q = p :=
      Option.some.inj ((f.parent_of_mem hdq).symm.trans (f.parent_of_mem hd))
    subst hqp
    have hle : f.height q ≤ f.height c := Descends.height_le hq
    exact absurd (f.height_lt hc) (by omega)

/-- **The subtrees of siblings are disjoint.** -/
theorem eq_of_descends_of_descends {c d x : α} (hc : c ∈ f.children p) (hd : d ∈ f.children p)
    (hcx : f.Descends c x) (hdx : f.Descends d x) : c = d := by
  induction hcx with
  | refl => exact (eq_of_descends_child hd hc hdx).symm
  | @tail y z hcy hz ih =>
    rcases Relation.ReflTransGen.cases_tail hdx with h | ⟨y', hdy, hz'⟩
    · subst h
      exact eq_of_descends_child hc hd (hcy.tail hz)
    · have hy : y' = y :=
        Option.some.inj ((f.parent_of_mem hz').symm.trans (f.parent_of_mem hz))
      exact ih (hy ▸ hdy)

/-! ## Folding the shown part -/

section Fold

variable (f) (visible : α → Bool)

/-- The visible children. -/
def shown (p : α) : List α := (f.children p).filter visible

variable {f visible}

theorem mem_children_of_mem_shown {c : α} (h : c ∈ f.shown visible p) : c ∈ f.children p :=
  (mem_filter.mp h).1

theorem visible_of_mem_shown {c : α} (h : c ∈ f.shown visible p) : visible c = true :=
  (mem_filter.mp h).2

theorem height_lt_of_mem_shown {c : α} (h : c ∈ f.shown visible p) : f.height c < f.height p :=
  f.height_lt (mem_children_of_mem_shown h)

theorem nodup_shown (p : α) : (f.shown visible p).Nodup := (f.nodup_children p).filter _

variable {β : Type*} (f) (visible) (node : α → List (α × β) → β)

/-- `fold`, cut off below a depth. -/
def foldTo : ℕ → α → β
  | 0, e => node e []
  | n + 1, e => node e ((f.shown visible e).map fun c => (c, foldTo n c))

/-- **Computing bottom-up**: at a vertex from what was computed at its visible children. -/
def fold (e : α) : β := f.foldTo visible node (f.height e) e

variable {f visible node}

theorem foldTo_eq {n : ℕ} {e : α} (h : f.height e ≤ n) :
    f.foldTo visible node n e = f.fold visible node e := by
  induction n using Nat.strong_induction_on generalizing e with
  | _ n ih =>
    rw [fold]
    cases n with
    | zero => rw [Nat.le_zero.mp h]
    | succ n =>
      have hrec : ∀ m, f.height e ≤ m + 1 → m ≤ n →
          ((f.shown visible e).map fun c => (c, f.foldTo visible node m c))
            = (f.shown visible e).map fun c => (c, f.fold visible node c) := by
        intro m hm hmn
        refine map_congr_left fun c hc => ?_
        have hlt := height_lt_of_mem_shown hc
        rw [ih m (by omega) (by omega)]
      cases hh : f.height e with
      | zero =>
        have hnil : f.shown visible e = [] := by
          refine eq_nil_iff_forall_not_mem.mpr fun c hc => ?_
          have hlt := height_lt_of_mem_shown hc
          omega
        simp [foldTo, hnil]
      | succ m =>
        rw [foldTo, foldTo, hrec n (by omega) le_rfl, hrec m (by omega) (by omega)]

theorem fold_eq (e : α) : f.fold visible node e
    = node e ((f.shown visible e).map fun c => (c, f.fold visible node c)) := by
  rw [← foldTo_eq (Nat.le_succ _), foldTo]
  exact congrArg _ (map_congr_left fun c hc => by
    rw [foldTo_eq (height_lt_of_mem_shown hc).le])

end Fold

/-- An induction down the tree. -/
theorem induction_down (f : Forest α) {motive : α → Prop}
    (h : ∀ e, (∀ c ∈ f.children e, motive c) → motive e) (e : α) : motive e := by
  induction hn : f.height e using Nat.strong_induction_on generalizing e with
  | _ n ih => exact h e fun c hc => ih _ (hn ▸ f.height_lt hc) c rfl

/-! ## The pre-order listing -/

variable (f) (visible expanded : α → Bool)

/-- **A visible vertex and, parents first, what is shown below it.** -/
def preorder : α → List α :=
  f.fold visible fun e parts => e :: if expanded e then parts.flatMap Prod.snd else []

/-- What is shown below a vertex that is itself open. -/
def below (p : α) : List α := (f.shown visible p).flatMap (f.preorder visible expanded)

variable {f visible expanded}

/-- **What follows a vertex is what is shown below it, when it is expanded.** -/
theorem preorder_eq (e : α) : f.preorder visible expanded e
    = e :: if expanded e then f.below visible expanded e else [] := by
  rw [preorder, fold_eq, flatMap_map]
  rfl

theorem mem_preorder_self (e : α) : e ∈ f.preorder visible expanded e := by
  rw [preorder_eq]
  exact mem_cons_self

theorem descends_of_mem_preorder {e x : α} (h : x ∈ f.preorder visible expanded e) :
    f.Descends e x := by
  induction e using f.induction_down generalizing x with
  | h e ih =>
    rw [preorder_eq, mem_cons] at h
    rcases h with rfl | h
    · exact Relation.ReflTransGen.refl
    · split at h
      · obtain ⟨c, hc, hx⟩ := mem_flatMap.mp h
        exact Relation.ReflTransGen.head (mem_children_of_mem_shown hc)
          (ih c (mem_children_of_mem_shown hc) hx)
      · exact nomatch h

/-- A shown vertex is visible. -/
theorem visible_of_mem_preorder {e x : α} (he : visible e = true)
    (h : x ∈ f.preorder visible expanded e) : visible x = true := by
  induction e using f.induction_down generalizing x with
  | h e ih =>
    rw [preorder_eq, mem_cons] at h
    rcases h with rfl | h
    · exact he
    · split at h
      · obtain ⟨c, hc, hx⟩ := mem_flatMap.mp h
        exact ih c (mem_children_of_mem_shown hc) (visible_of_mem_shown hc) hx
      · exact nomatch h

theorem visible_of_mem_below {x : α} (h : x ∈ f.below visible expanded p) :
    visible x = true := by
  obtain ⟨c, hc, hx⟩ := mem_flatMap.mp h
  exact visible_of_mem_preorder (visible_of_mem_shown hc) hx

theorem nodup_flatMap_of_nodup {l : List α} {p : α} (hl : l.Nodup) (hsub : l ⊆ f.children p)
    (h : ∀ c ∈ l, (f.preorder visible expanded c).Nodup) :
    (l.flatMap (f.preorder visible expanded)).Nodup := by
  refine nodup_flatMap.mpr ⟨h, hl.imp_of_mem ?_⟩
  intro c d hc hd hne x hxc hxd
  exact hne (eq_of_descends_of_descends (hsub hc) (hsub hd) (descends_of_mem_preorder hxc)
    (descends_of_mem_preorder hxd))

/-- **No vertex is listed twice.** -/
theorem nodup_preorder (e : α) : (f.preorder visible expanded e).Nodup := by
  induction e using f.induction_down with
  | h e ih =>
    rw [preorder_eq, nodup_cons]
    split
    · constructor
      · intro he
        obtain ⟨c, hc, hx⟩ := mem_flatMap.mp he
        have hlt := f.height_lt (mem_children_of_mem_shown hc)
        have hle := (descends_of_mem_preorder hx).height_le
        omega
      · exact nodup_flatMap_of_nodup (nodup_shown e)
          (fun _ hc => mem_children_of_mem_shown hc)
          fun c hc => ih c (mem_children_of_mem_shown hc)
    · simp

theorem nodup_below (p : α) : (f.below visible expanded p).Nodup :=
  nodup_flatMap_of_nodup (nodup_shown p)
    (fun _ hc => mem_children_of_mem_shown hc) fun c _ => nodup_preorder c

end Forest
