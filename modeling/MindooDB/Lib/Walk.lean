import MindooDB.Lib.LinkedMap

/-!
# Lib/Walk — collecting what a stack can reach

A depth-first collection with an explicit stack: pop a vertex, skip it when it was seen or is not
accepted, otherwise mark it and push its successors not seen yet.  `walk_spec` says what the loop
is for: with enough fuel it ends, and has marked exactly the accepted vertices reachable from the
roots.

`accepts` tells which vertices may be marked, `succ` where they lead; `succ` of a vertex that is
never accepted is never asked for.
-/

namespace Walk

open List

variable {α : Type*}

/-- One step of the walk: to an accepted successor. -/
def Edge (accepts : α → Bool) (succ : α → List α) (u v : α) : Prop := v ∈ succ u ∧ accepts v = true

/-- Reachable from the roots through accepted vertices. -/
def Reachable (accepts : α → Bool) (succ : α → List α) (roots : List α) (v : α) : Prop :=
  ∃ r ∈ roots, accepts r = true ∧ Relation.ReflTransGen (Edge accepts succ) r v

variable {accepts : α → Bool} {succ : α → List α}

theorem Reachable.accepted {roots : List α} {v : α} (h : Reachable accepts succ roots v) :
    accepts v = true := by
  obtain ⟨r, -, hr, hrv⟩ := h
  rcases Relation.ReflTransGen.cases_tail hrv with rfl | ⟨u, -, huv⟩
  · exact hr
  · exact huv.2

theorem Reachable.mono {roots roots' : List α} {v : α} (h : Reachable accepts succ roots v)
    (hsub : roots ⊆ roots') : Reachable accepts succ roots' v := by
  obtain ⟨r, hr, hrv⟩ := h
  exact ⟨r, hsub hr, hrv⟩

theorem Reachable.tail {roots : List α} {u v : α} (h : Reachable accepts succ roots u)
    (huv : Edge accepts succ u v) : Reachable accepts succ roots v := by
  obtain ⟨r, hr, hacc, hru⟩ := h
  exact ⟨r, hr, hacc, hru.tail huv⟩

variable [DecidableEq α]

/-- The loop; the stack has its top in front.  `none` when the fuel ran out. -/
def walk (accepts : α → Bool) (succ : α → List α) : ℕ → List α → LinkedSet α → Option (LinkedSet α)
  | _, [], seen => some seen
  | 0, _ :: _, _ => none
  | fuel + 1, v :: stack, seen =>
    if v ∈ seen then walk accepts succ fuel stack seen
    else if accepts v then
      walk accepts succ fuel ((succ v).foldl (fun st w => if w ∈ seen.add v then st else w :: st) stack)
        (seen.add v)
    else walk accepts succ fuel stack seen

/-- What is pushed is the unseen successors. -/
theorem mem_foldl_push {seen : LinkedSet α} {l stack : List α} {w : α} :
    w ∈ l.foldl (fun st w => if w ∈ seen then st else w :: st) stack
      ↔ w ∈ stack ∨ w ∈ l ∧ w ∉ seen := by
  induction l generalizing stack with
  | nil => simp
  | cons x l ih =>
    rw [foldl_cons, ih]
    by_cases hx : x ∈ seen
    · simp only [if_pos hx, mem_cons]
      refine or_congr_right ⟨fun h => ⟨.inr h.1, h.2⟩, fun ⟨h, hw⟩ => ⟨h.resolve_left ?_, hw⟩⟩
      rintro rfl
      exact hw hx
    · simp only [if_neg hx, mem_cons]
      constructor
      · rintro ((rfl | h) | h)
        · exact .inr ⟨.inl rfl, hx⟩
        · exact .inl h
        · exact .inr ⟨.inr h.1, h.2⟩
      · rintro (h | ⟨rfl | h, hw⟩)
        · exact .inl (.inr h)
        · exact .inl (.inl rfl)
        · exact .inr ⟨h, hw⟩

theorem length_foldl_push_le (seen : LinkedSet α) (l stack : List α) :
    (l.foldl (fun st w => if w ∈ seen then st else w :: st) stack).length
      ≤ l.length + stack.length := by
  induction l generalizing stack with
  | nil => simp
  | cons x l ih =>
    rw [foldl_cons, length_cons]
    have hrest := ih (if x ∈ seen then stack else x :: stack)
    have hx : (if x ∈ seen then stack else x :: stack).length ≤ stack.length + 1 := by
      split <;> simp
    omega

/-! ## The walk ends

Every vertex pushes its successors once, so the loop makes at most as many steps as there are roots
and successors together.  `vertices` lists the vertices that have successors at all. -/

/-- The successors still to be pushed. -/
def debt (succ : α → List α) (vertices : List α) (seen : LinkedSet α) : ℕ :=
  (vertices.map fun v => if v ∈ seen then 0 else (succ v).length).sum

theorem debt_add_le_debt (vertices : List α) (seen : LinkedSet α) (v : α) :
    debt succ vertices (seen.add v) ≤ debt succ vertices seen := by
  refine sum_le_sum fun w _ => ?_
  by_cases hw : w ∈ seen
  · simp [hw]
  · by_cases hwv : w = v <;> simp [hw, hwv]

/-- Marking a vertex pays off its successors. -/
theorem debt_add_le {vertices : List α} {seen : LinkedSet α} {v : α}
    (hv : succ v ≠ [] → v ∈ vertices) (hnew : v ∉ seen) :
    debt succ vertices (seen.add v) + (succ v).length ≤ debt succ vertices seen := by
  by_cases hsucc : succ v = []
  · simpa [hsucc] using debt_add_le_debt vertices seen v
  have hmem := hv hsucc
  clear hv hsucc
  induction vertices with
  | nil => simp at hmem
  | cons w vertices ih =>
    rw [debt, debt, map_cons, map_cons, sum_cons, sum_cons]
    have hmono : debt succ vertices (seen.add v) ≤ debt succ vertices seen :=
      debt_add_le_debt vertices seen v
    rw [debt, debt] at hmono
    by_cases hw : w = v
    · subst hw
      rw [if_pos (LinkedSet.mem_add.mpr (.inl rfl)), if_neg hnew]
      omega
    · have hrest := ih ((mem_cons.mp hmem).resolve_left (Ne.symm hw))
      rw [debt, debt] at hrest
      have hterm : (if w ∈ seen.add v then 0 else (succ w).length)
          = if w ∈ seen then 0 else (succ w).length := by simp [hw]
      omega

/-! ## The walk is right -/

/-- What holds between two steps: the marked vertices are reachable, the stack leads nowhere else,
and whatever a root or a marked vertex leads to is marked or on the stack. -/
structure Invariant (accepts : α → Bool) (succ : α → List α) (roots stack : List α)
    (seen : LinkedSet α) : Prop where
  sound : ∀ v ∈ seen, Reachable accepts succ roots v
  onStack : ∀ v ∈ stack, accepts v = true → Reachable accepts succ roots v
  fromRoots : ∀ r ∈ roots, accepts r = true → r ∈ seen ∨ r ∈ stack
  closed : ∀ u ∈ seen, ∀ v, Edge accepts succ u v → v ∈ seen ∨ v ∈ stack

variable {roots stack : List α} {seen : LinkedSet α} {v : α}

omit [DecidableEq α] in
/-- New roots on the stack, when all is marked that the old ones reach. -/
theorem invariant_initial {done : List α} (hseen : ∀ v, v ∈ seen ↔ Reachable accepts succ done v) :
    Invariant accepts succ (done ++ roots) roots seen where
  sound v hv := ((hseen v).mp hv).mono (subset_append_left _ _)
  onStack v hv hacc := ⟨v, mem_append_right _ hv, hacc, .refl⟩
  fromRoots r hr hacc := (mem_append.mp hr).imp_left fun hdone =>
    (hseen r).mpr ⟨r, hdone, hacc, .refl⟩
  closed u hu v huv := .inl ((hseen v).mpr (((hseen u).mp hu).tail huv))

omit [DecidableEq α] in
/-- Popping a vertex that is marked already, or may not be. -/
theorem Invariant.skip (h : Invariant accepts succ roots (v :: stack) seen)
    (hv : v ∈ seen ∨ accepts v = false) : Invariant accepts succ roots stack seen where
  sound := h.sound
  onStack w hw := h.onStack w (mem_cons_of_mem _ hw)
  fromRoots r hr hacc := by
    rcases h.fromRoots r hr hacc with hseen | hstack
    · exact .inl hseen
    · rcases mem_cons.mp hstack with rfl | hrest
      · exact hv.imp_right fun hno => absurd hacc (by simp [hno])
      · exact .inr hrest
  closed u hu w huw := by
    rcases h.closed u hu w huw with hseen | hstack
    · exact .inl hseen
    · rcases mem_cons.mp hstack with rfl | hrest
      · exact hv.imp_right fun hno => absurd huw.2 (by simp [hno])
      · exact .inr hrest

/-- Marking a vertex and pushing its successors. -/
theorem Invariant.mark (h : Invariant accepts succ roots (v :: stack) seen)
    (hacc : accepts v = true) :
    Invariant accepts succ roots
      ((succ v).foldl (fun st w => if w ∈ seen.add v then st else w :: st) stack) (seen.add v) := by
  have hreach : Reachable accepts succ roots v := h.onStack v mem_cons_self hacc
  have hpast : ∀ {w}, w ∈ seen ∨ w ∈ v :: stack → w ∈ seen.add v ∨
      w ∈ (succ v).foldl (fun st w => if w ∈ seen.add v then st else w :: st) stack := by
    intro w hw
    rw [mem_foldl_push, LinkedSet.mem_add]
    rcases hw with hw | hw
    · exact .inl (.inr hw)
    · exact (mem_cons.mp hw).imp .inl .inl
  refine ⟨fun w hw => ?_, fun w hw hw' => ?_, fun r hr hracc => hpast (h.fromRoots r hr hracc),
    fun u hu w huw => ?_⟩
  · rcases LinkedSet.mem_add.mp hw with rfl | hw
    · exact hreach
    · exact h.sound w hw
  · rcases mem_foldl_push.mp hw with hw | hw
    · exact h.onStack w (mem_cons_of_mem _ hw) hw'
    · exact hreach.tail ⟨hw.1, hw'⟩
  · rcases LinkedSet.mem_add.mp hu with rfl | hu
    · by_cases hw : w ∈ seen.add u
      · exact .inl hw
      · exact .inr (mem_foldl_push.mpr (.inr ⟨huw.1, hw⟩))
    · exact hpast (h.closed u hu w huw)

omit [DecidableEq α] in
/-- With an empty stack everything reachable is marked. -/
theorem Invariant.complete (h : Invariant accepts succ roots [] seen)
    (hv : Reachable accepts succ roots v) : v ∈ seen := by
  obtain ⟨r, hr, hacc, hrv⟩ := hv
  have hroot : r ∈ seen := (h.fromRoots r hr hacc).resolve_right not_mem_nil
  induction hrv with
  | refl => exact hroot
  | tail _ huw ih => exact (h.closed _ ih _ huw).resolve_right not_mem_nil

theorem walk_of_invariant {vertices : List α}
    (hvertices : ∀ v, Reachable accepts succ roots v → succ v ≠ [] → v ∈ vertices) (fuel : ℕ)
    (h : Invariant accepts succ roots stack seen)
    (hfuel : stack.length + debt succ vertices seen ≤ fuel) :
    ∃ seen', walk accepts succ fuel stack seen = some seen' ∧
      ∀ v, v ∈ seen' ↔ Reachable accepts succ roots v := by
  induction fuel generalizing stack seen with
  | zero =>
    obtain rfl : stack = [] := length_eq_zero_iff.mp (by omega)
    exact ⟨seen, rfl, fun v => ⟨h.sound v, h.complete⟩⟩
  | succ fuel ih =>
    rcases stack with _ | ⟨v, stack⟩
    · exact ⟨seen, rfl, fun v => ⟨h.sound v, h.complete⟩⟩
    rw [length_cons] at hfuel
    rw [walk]
    split
    · exact ih (h.skip (.inl ‹_›)) (by omega)
    · rename_i hnew
      split
      · rename_i hacc
        have hpush := length_foldl_push_le (seen.add v) (succ v) stack
        have hdebt := debt_add_le (hvertices v (h.onStack v mem_cons_self hacc)) hnew
        exact ih (h.mark hacc) (by omega)
      · exact ih (h.skip (.inr (by simpa using ‹¬ accepts v = true›))) (by omega)

/-- A walk from new roots adds what they reach. -/
theorem walk_more {vertices done : List α}
    (hvertices : ∀ v, Reachable accepts succ (done ++ roots) v → succ v ≠ [] → v ∈ vertices)
    {fuel : ℕ} (hfuel : roots.length + (vertices.map fun v => (succ v).length).sum ≤ fuel)
    (hseen : ∀ v, v ∈ seen ↔ Reachable accepts succ done v) :
    ∃ seen', walk accepts succ fuel roots seen = some seen' ∧
      ∀ v, v ∈ seen' ↔ Reachable accepts succ (done ++ roots) v := by
  refine walk_of_invariant hvertices fuel (invariant_initial hseen) (le_trans ?_ hfuel)
  refine Nat.add_le_add_left (sum_le_sum fun v _ => ?_) _
  split
  · exact Nat.zero_le _
  · exact le_refl _

/-- **The walk marks what is reachable**: one step for each root and each successor is enough. -/
theorem walk_spec (accepts : α → Bool) {vertices : List α}
    (hvertices : ∀ v, Reachable accepts succ roots v → succ v ≠ [] → v ∈ vertices) {fuel : ℕ}
    (hfuel : roots.length + (vertices.map fun v => (succ v).length).sum ≤ fuel) :
    ∃ seen, walk accepts succ fuel roots ∅ = some seen ∧
      ∀ v, v ∈ seen ↔ Reachable accepts succ roots v := by
  have hnone : ∀ v, v ∈ (∅ : LinkedSet α) ↔ Reachable accepts succ [] v := by
    simp [Reachable]
  exact walk_more hvertices hfuel hnone

end Walk
