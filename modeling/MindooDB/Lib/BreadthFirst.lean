import MindooDB.Lib.LinkedMap

/-!
# Lib/BreadthFirst — in which order a queue reaches things

A collection with a queue: take the first vertex, skip it when it was seen, otherwise mark it and
queue its successors not seen yet.  A **path** is the list of the numbers of the successors that are
taken, one after the other; paths are compared by length, then from the front (`Before`).

`pairwise_traverse_iff`: vertices are marked in the order of their first paths.  The invariant keeps,
for every marked or queued vertex, the path on which it was queued.
-/

namespace BreadthFirst

open List Option

variable {α : Type*}

section Paths

variable (succ : α → List α) (root : α)

/-- Where a path leads. -/
def pathEnd (p : List ℕ) : Option α := p.foldlM (fun v i => (succ v)[i]?) root

/-- A path is shorter than another, or as long and earlier. -/
abbrev Before : List ℕ → List ℕ → Prop := List.Shortlex (· < ·)

/-- **A vertex is reached first**: some path to it comes before all paths to the other. -/
def FirstBefore (u v : α) : Prop :=
  (∃ q, pathEnd succ root q = some v) ∧
    ∃ p, pathEnd succ root p = some u ∧ ∀ q, pathEnd succ root q = some v → Before p q

end Paths

variable {succ : α → List α} {root : α}

theorem pathEnd_append_singleton (p : List ℕ) (i : ℕ) :
    pathEnd succ root (p ++ [i]) = (pathEnd succ root p).bind fun v => (succ v)[i]? := by
  rw [pathEnd, foldlM_append]
  cases h : List.foldlM (fun v i => (succ v)[i]?) root p <;> simp [pathEnd, h]

/-- Paths lead where edges lead. -/
theorem exists_pathEnd_iff {v : α} :
    (∃ p, pathEnd succ root p = some v) ↔ Relation.ReflTransGen (fun u w => w ∈ succ u) root v := by
  constructor
  · rintro ⟨p, hp⟩
    induction p using List.reverseRecOn generalizing v with
    | nil =>
      obtain rfl := some.inj hp
      exact .refl
    | append_singleton p i ih =>
      rw [pathEnd_append_singleton] at hp
      obtain ⟨u, hu, hget⟩ := bind_eq_some_iff.mp hp
      exact (ih hu).tail (mem_of_getElem? hget)
  · intro h
    induction h with
    | refl => exact ⟨[], rfl⟩
    | tail _ hedge ih =>
      obtain ⟨p, hp⟩ := ih
      obtain ⟨i, hi⟩ := mem_iff_getElem?.mp hedge
      exact ⟨p ++ [i], by rw [pathEnd_append_singleton, hp, bind_some, hi]⟩

/-! ## Comparing paths -/

section Compare

variable {p q r : List ℕ}

theorem before_iff : Before p q ↔ p.length < q.length ∨ p.length = q.length ∧ p < q :=
  shortlex_def

theorem Before.trans (hpq : Before p q) (hqr : Before q r) : Before p r := by
  rw [before_iff] at *
  rcases hpq with hpq | ⟨hpq, hlt⟩ <;> rcases hqr with hqr | ⟨hqr, hlt'⟩
  · exact .inl (hpq.trans hqr)
  · exact .inl (by omega)
  · exact .inl (by omega)
  · exact .inr ⟨by omega, hlt.trans hlt'⟩

theorem Before.irrefl : ¬Before p p := by
  rw [before_iff]
  rintro (h | ⟨-, h⟩)
  · exact h.false
  · exact h.false

theorem before_trichotomy (p q : List ℕ) : Before p q ∨ p = q ∨ Before q p := by
  simp only [before_iff]
  rcases lt_trichotomy p.length q.length with h | h | h
  · exact .inl (.inl h)
  · rcases lt_trichotomy p q with hlt | heq | hgt
    · exact .inl (.inr ⟨h, hlt⟩)
    · exact .inr (.inl heq)
    · exact .inr (.inr (.inr ⟨h.symm, hgt⟩))
  · exact .inr (.inr (.inl h))

theorem append_lt_append (hlength : p.length = q.length) (h : p < q) (s t : List ℕ) :
    p ++ s < q ++ t := by
  induction p generalizing q with
  | nil =>
    obtain rfl := length_eq_zero_iff.mp hlength.symm
    exact absurd h (lt_irrefl _)
  | cons a p ih =>
    obtain ⟨b, q, rfl⟩ := exists_cons_of_length_eq_add_one hlength.symm
    rw [length_cons, length_cons, Nat.add_right_cancel_iff] at hlength
    rw [cons_append, cons_append, cons_lt_cons_iff]
    exact (cons_lt_cons_iff.mp h).imp_right fun hrest => ⟨hrest.1, ih hlength hrest.2⟩

/-- A step more keeps the order. -/
theorem Before.append (h : Before p q) (i j : ℕ) : Before (p ++ [i]) (q ++ [j]) := by
  rw [before_iff] at *
  rw [length_append, length_append, length_singleton, length_singleton]
  rcases h with h | ⟨hlength, hlt⟩
  · exact .inl (by omega)
  · exact .inr ⟨by omega, append_lt_append hlength hlt [i] [j]⟩

theorem before_append (p : List ℕ) (i : ℕ) : Before p (p ++ [i]) :=
  .of_length_lt (by simp)

theorem not_before_nil : ¬Before p [] := not_shortlex_nil_right

end Compare

/-! ## The loop -/

section Loop

/-- The loop; `none` when the fuel ran out. -/
def traverse [DecidableEq α] (succ : α → List α) : ℕ → List α → LinkedSet α → Option (LinkedSet α)
  | _, [], seen => some seen
  | 0, _ :: _, _ => none
  | fuel + 1, v :: queue, seen =>
    if v ∈ seen then traverse succ fuel queue seen
    else traverse succ fuel (queue ++ (succ v).filter fun w => w ∉ seen.add v) (seen.add v)

/-- **What holds between two rounds**, of the paths `marked` to the marked vertices and the paths
`queued` to the queued ones: all are in order, a queued path goes one step further than a marked one,
and where one could go on from a marked path there is a marked or queued path that is no later. -/
structure Invariant (succ : α → List α) (root : α) (queue : List α) (seen : LinkedSet α)
    (marked queued : List (List ℕ)) : Prop where
  queuedEnd : queued.map (pathEnd succ root) = queue.map some
  markedEnd : marked.map (pathEnd succ root) = seen.toList.map some
  sorted : (marked ++ queued).Pairwise Before
  parents : ∀ q ∈ queued, q = [] ∨ ∃ r ∈ marked, ∃ i, q = r ++ [i]
  fromRoot : [] ∈ marked ++ queued
  closed : ∀ p ∈ marked, ∀ i w, pathEnd succ root (p ++ [i]) = some w →
    ∃ p' ∈ marked ++ queued, pathEnd succ root p' = some w ∧ ¬Before (p ++ [i]) p'

variable {queue : List α} {seen : LinkedSet α} {marked queued : List (List ℕ)} {v : α}

theorem Invariant.mem_seen (h : Invariant succ root queue seen marked queued) {w : α} :
    w ∈ seen ↔ ∃ p ∈ marked, pathEnd succ root p = some w := by
  rw [← List.mem_map, h.markedEnd, List.mem_map]
  exact ⟨fun hw => ⟨w, hw, rfl⟩, fun ⟨u, hu, huw⟩ => some.inj huw ▸ hu⟩

theorem invariant_initial : Invariant succ root [root] ∅ [] [[]] where
  queuedEnd := rfl
  markedEnd := rfl
  sorted := pairwise_singleton _ _
  parents _ hq := .inl (mem_singleton.mp hq)
  fromRoot := mem_singleton_self _
  closed _ hp := nomatch hp

variable {q p : List ℕ}

/-- A path that is not marked has a queued one that is no later. -/
theorem Invariant.covers (h : Invariant succ root queue seen marked queued) {w : α}
    (hq : pathEnd succ root q = some w) :
    (∃ p ∈ marked, pathEnd succ root p = some w ∧ ¬Before q p) ∨ ∃ p ∈ queued, ¬Before q p := by
  induction q using List.reverseRecOn generalizing w with
  | nil =>
    rcases mem_append.mp h.fromRoot with hmarked | hqueued
    · exact .inl ⟨[], hmarked, hq, not_before_nil⟩
    · exact .inr ⟨[], hqueued, not_before_nil⟩
  | append_singleton q i ih =>
    have hsplit := hq
    rw [pathEnd_append_singleton] at hsplit
    obtain ⟨u, hu, hget⟩ := bind_eq_some_iff.mp hsplit
    -- a path that is no later stays so when both go on
    have hstep : ∀ {p : List ℕ}, ¬Before q p → ¬Before (q ++ [i]) (p ++ [i]) := fun {p} hp => by
      rcases before_trichotomy q p with hlt | rfl | hgt
      · exact absurd hlt hp
      · exact Before.irrefl
      · exact fun hback => Before.irrefl (hback.trans (hgt.append i i))
    have hlater : ∀ {p p' : List ℕ}, ¬Before p p' → ¬Before (q ++ [i]) p → ¬Before (q ++ [i]) p' := by
      intro p p' hpp' hp hback
      rcases before_trichotomy p p' with hlt | rfl | hgt
      · exact hpp' hlt
      · exact hp hback
      · exact hp (hback.trans hgt)
    rcases ih hu with ⟨p, hp, hpu, hle⟩ | ⟨p, hp, hle⟩
    · have hend : pathEnd succ root (p ++ [i]) = some w := by
        rw [pathEnd_append_singleton, hpu, bind_some, hget]
      obtain ⟨p', hp', hend', hle'⟩ := h.closed p hp i w hend
      have hle'' := hlater hle' (hstep hle)
      rcases mem_append.mp hp' with hmarked | hqueued
      · exact .inl ⟨p', hmarked, hend', hle''⟩
      · exact .inr ⟨p', hqueued, hle''⟩
    · refine .inr ⟨p, hp, fun hback => ?_⟩
      exact hle ((before_append q i).trans hback)

/-- Taking a vertex that was seen. -/
theorem Invariant.skip
    (h : Invariant succ root (v :: queue) seen marked (p :: queued)) (hv : v ∈ seen) :
    Invariant succ root queue seen marked queued := by
  have hend : pathEnd succ root p = some v := (List.cons.inj h.queuedEnd).1
  obtain ⟨p₀, hp₀, hend₀⟩ := h.mem_seen.mp hv
  have hbefore : Before p₀ p :=
    (pairwise_append.mp h.sorted).2.2 p₀ hp₀ p mem_cons_self
  refine ⟨(List.cons.inj h.queuedEnd).2, h.markedEnd, ?_, fun q hq => h.parents q
    (mem_cons_of_mem _ hq), ?_, fun q hq i w hw => ?_⟩
  · exact h.sorted.sublist ((sublist_cons_self p queued).append_left marked)
  · rcases mem_append.mp h.fromRoot with hmarked | hqueued
    · exact mem_append_left _ hmarked
    · rcases mem_cons.mp hqueued with rfl | hqueued
      · exact absurd hbefore not_before_nil
      · exact mem_append_right _ hqueued
  · obtain ⟨p', hp', hend', hle⟩ := h.closed q hq i w hw
    rcases mem_append.mp hp' with hmarked | hqueued
    · exact ⟨p', mem_append_left _ hmarked, hend', hle⟩
    · rcases mem_cons.mp hqueued with rfl | hqueued
      -- the marked path to the same vertex is earlier still
      · refine ⟨p₀, mem_append_left _ hp₀, hend₀.trans (hend.symm.trans hend'), fun hback => ?_⟩
        exact hle (hback.trans hbefore)
      · exact ⟨p', mem_append_right _ hqueued, hend', hle⟩

variable [DecidableEq α]

/-- The paths that go one step on from `p`, to the successors that were not seen. -/
def onward (succ : α → List α) (p : List ℕ) (v : α) (seen : LinkedSet α) : List (List ℕ) :=
  ((succ v).zipIdx.filter fun w => w.1 ∉ seen).map fun w => p ++ [w.2]

theorem map_pathEnd_onward (hend : pathEnd succ root p = some v) (seen : LinkedSet α) :
    (onward succ p v seen).map (pathEnd succ root) = ((succ v).filter fun w => w ∉ seen).map some := by
  have hfilter : (succ v).filter (fun w => w ∉ seen)
      = ((succ v).zipIdx.filter fun w => w.1 ∉ seen).map Prod.fst := by
    conv_lhs => rw [← zipIdx_map_fst 0 (succ v), List.filter_map]
    rfl
  rw [hfilter, onward, List.map_map, List.map_map]
  refine map_congr_left fun w hw => ?_
  have hget := mk_mem_zipIdx_iff_getElem?.mp (mem_filter.mp hw).1
  rw [Function.comp_apply, pathEnd_append_singleton, hend, bind_some, hget]
  rfl

theorem pairwise_onward (p : List ℕ) (v : α) (seen : LinkedSet α) :
    (onward succ p v seen).Pairwise Before := by
  have hzip : (succ v).zipIdx.Pairwise fun w w' => w.2 < w'.2 := by
    rw [← pairwise_map, zipIdx_map_snd]
    exact pairwise_lt_range'
  refine pairwise_map.mpr ((hzip.sublist filter_sublist).imp fun {w w'} hlt => ?_)
  exact ((shortlex_singleton_iff w.2 w'.2).mpr hlt).append_left p

/-- Taking a vertex that is new. -/
theorem Invariant.mark
    (h : Invariant succ root (v :: queue) seen marked (p :: queued)) (hv : v ∉ seen) :
    Invariant succ root (queue ++ (succ v).filter fun w => w ∉ seen.add v) (seen.add v)
      (marked ++ [p]) (queued ++ onward succ p v (seen.add v)) := by
  have hend : pathEnd succ root p = some v := (List.cons.inj h.queuedEnd).1
  obtain ⟨hmarked, hqueued, hcross⟩ := pairwise_append.mp h.sorted
  obtain ⟨hfirst, hrest⟩ := pairwise_cons.mp hqueued
  have honward : ∀ q ∈ onward succ p v (seen.add v), ∃ i, q = p ++ [i] := by
    intro q hq
    obtain ⟨w, -, rfl⟩ := List.mem_map.mp hq
    exact ⟨w.2, rfl⟩
  have hbefore : ∀ q ∈ marked, Before q p := fun q hq => hcross q hq p mem_cons_self
  refine ⟨?_, ?_, ?_, ?_, ?_, ?_⟩
  · rw [map_append, map_append, (List.cons.inj h.queuedEnd).2, map_pathEnd_onward hend]
  · rw [map_append, h.markedEnd, LinkedSet.toList_add, if_neg hv, map_append, map_cons,
      hend]
    rfl
  · rw [append_assoc, singleton_append]
    refine pairwise_append.mpr ⟨hmarked, pairwise_cons.mpr ⟨fun q hq => ?_,
      pairwise_append.mpr ⟨hrest, pairwise_onward p v _, fun q hq q' hq' => ?_⟩⟩,
      fun q hq q' hq' => ?_⟩
    · rcases mem_append.mp hq with hq | hq
      · exact hfirst q hq
      · obtain ⟨i, rfl⟩ := honward q hq
        exact before_append p i
    · obtain ⟨i, rfl⟩ := honward q' hq'
      -- a queued path goes on from a marked one, which comes before `p`
      rcases h.parents q (mem_cons_of_mem _ hq) with rfl | ⟨r, hr, j, rfl⟩
      · exact .of_length_lt (by simp)
      · exact (hbefore r hr).append j i
    · rcases mem_cons.mp hq' with rfl | hq'
      · exact hbefore q hq
      · rcases mem_append.mp hq' with hq' | hq'
        · exact hcross q hq q' (mem_cons_of_mem _ hq')
        · obtain ⟨i, rfl⟩ := honward q' hq'
          exact (hbefore q hq).trans (before_append p i)
  · intro q hq
    rcases mem_append.mp hq with hq | hq
    · refine (h.parents q (mem_cons_of_mem _ hq)).imp_right ?_
      rintro ⟨r, hr, i, rfl⟩
      exact ⟨r, mem_append_left _ hr, i, rfl⟩
    · obtain ⟨i, rfl⟩ := honward q hq
      exact .inr ⟨p, mem_append_right _ (mem_singleton_self p), i, rfl⟩
  · have hroot := h.fromRoot
    simp only [mem_append, mem_cons, not_mem_nil, or_false] at hroot ⊢
    tauto
  · have hkept : ∀ q ∈ marked ++ p :: queued,
        q ∈ (marked ++ [p]) ++ (queued ++ onward succ p v (seen.add v)) := by
      intro q hq
      simp only [mem_append, mem_cons, not_mem_nil, or_false] at hq ⊢
      tauto
    intro q hq i w hw
    rcases mem_append.mp hq with hq | hq
    · obtain ⟨p', hp', hrest'⟩ := h.closed q hq i w hw
      exact ⟨p', hkept p' hp', hrest'⟩
    · obtain rfl := mem_singleton.mp hq
      by_cases hseen : w ∈ seen.add v
      · rcases LinkedSet.mem_add.mp hseen with rfl | hseen
        · exact ⟨q, hkept q (by simp), hend, fun hback => Before.irrefl (hback.trans (before_append q i))⟩
        · obtain ⟨p₀, hp₀, hend₀⟩ := h.mem_seen.mp hseen
          refine ⟨p₀, hkept p₀ (by simp [hp₀]), hend₀, fun hback => ?_⟩
          exact Before.irrefl ((hback.trans (hbefore p₀ hp₀)).trans (before_append q i))
      · refine ⟨q ++ [i], mem_append_right _ (mem_append_right _ ?_), hw, Before.irrefl⟩
        rw [pathEnd_append_singleton, hend, bind_some] at hw
        exact List.mem_map.mpr ⟨(w, i), mem_filter.mpr
          ⟨mk_mem_zipIdx_iff_getElem?.mpr hw, by simpa using hseen⟩, rfl⟩

/-- The loop keeps the invariant to its end. -/
theorem Invariant.traverse {fuel : ℕ} {seen' : LinkedSet α}
    (h : Invariant succ root queue seen marked queued)
    (hrun : traverse succ fuel queue seen = some seen') :
    ∃ marked', Invariant succ root [] seen' marked' [] := by
  induction fuel generalizing queue seen marked queued with
  | zero =>
    cases queue with
    | nil =>
      obtain rfl := some.inj hrun
      obtain rfl := map_eq_nil_iff.mp h.queuedEnd
      exact ⟨marked, h⟩
    | cons v queue => cases hrun
  | succ fuel ih =>
    cases queue with
    | nil =>
      obtain rfl := some.inj hrun
      obtain rfl := map_eq_nil_iff.mp h.queuedEnd
      exact ⟨marked, h⟩
    | cons v queue =>
      cases queued with
      | nil => cases h.queuedEnd
      | cons p queued =>
        rw [BreadthFirst.traverse] at hrun
        split at hrun
        · exact ih (h.skip ‹_›) hrun
        · exact ih (h.mark ‹_›) hrun

/-! ## The order -/

omit [DecidableEq α] in
/-- At the end every vertex that a path leads to is marked, by a path that none to it is before. -/
theorem Invariant.exists_least (h : Invariant succ root [] seen marked [])
    (hq : pathEnd succ root q = some v) :
    ∃ p ∈ marked, pathEnd succ root p = some v ∧ ¬Before q p :=
  (h.covers hq).resolve_right fun ⟨_, hp, _⟩ => not_mem_nil hp

omit [DecidableEq α] in
/-- The marked paths are in order, and no two lead to the same vertex. -/
theorem Invariant.marked_inj (h : Invariant succ root [] seen marked [])
    (hp : p ∈ marked) (hq : q ∈ marked) (hend : pathEnd succ root p = pathEnd succ root q) : p = q := by
  refine inj_on_of_nodup_map ?_ hp hq hend
  rw [h.markedEnd]
  exact seen.nodup.map (some_injective α)

omit [DecidableEq α] in
theorem not_before_trans {r : List ℕ} (hpq : Before p q) (hqr : ¬Before r q) : Before p r := by
  rcases before_trichotomy q r with h | rfl | h
  · exact hpq.trans h
  · exact hpq
  · exact absurd h hqr

variable {fuel : ℕ}

theorem mem_traverse_iff (hrun : traverse succ fuel [root] ∅ = some seen) :
    v ∈ seen ↔ Relation.ReflTransGen (fun u w => w ∈ succ u) root v := by
  obtain ⟨marked, h⟩ := invariant_initial.traverse hrun
  rw [← exists_pathEnd_iff]
  constructor
  · intro hv
    obtain ⟨p, -, hp⟩ := h.mem_seen.mp hv
    exact ⟨p, hp⟩
  · rintro ⟨q, hq⟩
    obtain ⟨p, hp, hend, -⟩ := h.exists_least hq
    exact h.mem_seen.mpr ⟨p, hp, hend⟩

omit [DecidableEq α] in
/-- One vertex is reached before another when the marked path to it comes first. -/
theorem Invariant.firstBefore_iff (h : Invariant succ root [] seen marked []) {u v : α}
    (hp : p ∈ marked) (hq : q ∈ marked) (hu : pathEnd succ root p = some u)
    (hv : pathEnd succ root q = some v) : FirstBefore succ root u v ↔ Before p q := by
  have hleast : ∀ {p q w}, p ∈ marked → pathEnd succ root p = some w →
      pathEnd succ root q = some w → ¬Before q p := by
    intro p q w hp hpw hqw
    obtain ⟨p', hp', hend, hle⟩ := h.exists_least hqw
    rwa [h.marked_inj hp' hp (hend.trans hpw.symm)] at hle
  constructor
  · rintro ⟨-, p', hp', hfirst⟩
    have hbefore := hfirst q hv
    rcases before_trichotomy p p' with hlt | rfl | hgt
    · exact hlt.trans hbefore
    · exact hbefore
    · exact absurd hgt (hleast hp hu hp')
  · exact fun hbefore => ⟨⟨q, hv⟩, p, hu, fun q' hq' => not_before_trans hbefore (hleast hq hv hq')⟩

/-- **Vertices are marked in the order of their first paths.** -/
theorem pairwise_traverse_iff (hrun : traverse succ fuel [root] ∅ = some seen) (R : α → α → Prop) :
    seen.toList.Pairwise R ↔ ∀ u v, FirstBefore succ root u v → R u v := by
  obtain ⟨marked, h⟩ := invariant_initial.traverse hrun
  have hsorted : marked.Pairwise Before := by
    have hall := h.sorted
    rwa [append_nil] at hall
  let S : List ℕ → List ℕ → Prop := fun p q => ∀ u v, pathEnd succ root p = some u →
    pathEnd succ root q = some v → R u v
  have hpaths : seen.toList.Pairwise R ↔ marked.Pairwise S := by
    have hsome : seen.toList.Pairwise R ↔ (seen.toList.map some).Pairwise fun a b =>
        ∀ u v, a = some u → b = some v → R u v := by
      rw [pairwise_map]
      simp
    rw [hsome, ← h.markedEnd, pairwise_map]
  rw [hpaths]
  constructor
  · rintro hpairs u v huv
    obtain ⟨⟨q, hq⟩, p, hp, -⟩ := id huv
    obtain ⟨p', hp', hpu, -⟩ := h.exists_least hp
    obtain ⟨q', hq', hqv, -⟩ := h.exists_least hq
    have hbefore := (h.firstBefore_iff hp' hq' hpu hqv).mp huv
    -- of two marked paths the one that is listed first comes first
    have hboth : ∀ ⦃p⦄, p ∈ marked → ∀ ⦃q⦄, q ∈ marked → Before p q → S p q := by
      have hlisted : marked.Pairwise fun p q => Before p q → S p q := by
        refine hpairs.imp ?_
        intro p q hS _
        exact hS
      refine hlisted.forall_of_forall_of_flip (fun p _ hself => absurd hself Before.irrefl) ?_
      exact hsorted.imp fun hlt hback => absurd (hlt.trans hback) Before.irrefl
    exact hboth hp' hq' hbefore u v hpu hqv
  · intro hall
    refine hsorted.imp_of_mem fun {p q} hp hq hbefore u v hu hv => ?_
    exact hall u v ((h.firstBefore_iff hp hq hu hv).mpr hbefore)

omit [DecidableEq α] in
/-- Of two different vertices that are reached one is reached first. -/
theorem firstBefore_or {u v : α} (hu : Relation.ReflTransGen (fun u w => w ∈ succ u) root u)
    (hv : Relation.ReflTransGen (fun u w => w ∈ succ u) root v) (hne : u ≠ v) :
    FirstBefore succ root u v ∨ FirstBefore succ root v u := by
  have hwf : WellFounded Before := List.Shortlex.wf wellFounded_lt
  have hleast : ∀ {w}, Relation.ReflTransGen (fun u w => w ∈ succ u) root w →
      ∃ p, pathEnd succ root p = some w ∧ ∀ q, pathEnd succ root q = some w → ¬Before q p := by
    intro w hw
    exact hwf.has_min {p | pathEnd succ root p = some w} (exists_pathEnd_iff.mpr hw)
  obtain ⟨p, hp, hpleast⟩ := hleast hu
  obtain ⟨q, hq, hqleast⟩ := hleast hv
  rcases before_trichotomy p q with hlt | rfl | hgt
  · exact .inl ⟨⟨q, hq⟩, p, hp, fun q' hq' => not_before_trans hlt (hqleast q' hq')⟩
  · exact absurd (some.inj (hp.symm.trans hq)) hne
  · exact .inr ⟨⟨p, hp⟩, q, hq, fun p' hp' => not_before_trans hgt (hpleast p' hp')⟩

omit [DecidableEq α] in
theorem FirstBefore.asymm {u v : α} (h : FirstBefore succ root u v) : ¬FirstBefore succ root v u := by
  rintro ⟨-, q, hq, hfirst⟩
  obtain ⟨-, p, hp, hfirst'⟩ := h
  exact Before.irrefl ((hfirst' q hq).trans (hfirst p hp))

end Loop

end BreadthFirst
