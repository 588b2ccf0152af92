import MindooDB.Lib.ReadyOrder
import MindooDB.Planner.MaterializationPlanner

/-!
# Planner/Topological — Kahn's loop follows the greedy order

Between two rounds of the loop the queue holds exactly the ready ids, sorted, and the in-degree of
an id is the number of its dependencies still to come, each counted as often as it is listed
(`KahnInvariant`).  So each round emits the least ready id, which is the greedy order of
`ReadyOrder`; the order of the set, and of the maps, does not enter.
-/

namespace MindooDB

open JSString List ReadyOrder

@[simp] theorem orFalsy_zero (n : Option ℤ) : orFalsy n 0 = n.getD 0 := by
  unfold orFalsy
  split
  · rfl
  · split
    · rename_i h
      simp [h]
    · rfl

/-! ## The tables -/

section Tables

variable {ids : LinkedSet JSString}

/-- What the tables say: `f` counts the dependencies of each id, `g` the occurrences of each id
among the dependents of each. -/
structure TablesCount (ids : LinkedSet JSString) (tables : DependencyTables)
    (f : JSString → ℕ) (g : JSString → JSString → ℕ) : Prop where
  indegree : ∀ x ∈ ids, tables.indegree.get? x = some (f x : ℤ)
  dependents : ∀ y ∈ ids, ∃ l, tables.dependents.get? y = some l ∧ ∀ x, l.count x = g y x

theorem TablesCount.congr {tables : DependencyTables} {f f' : JSString → ℕ}
    {g g' : JSString → JSString → ℕ} (h : TablesCount ids tables f g) (hf : ∀ x ∈ ids, f x = f' x)
    (hg : ∀ y ∈ ids, ∀ x, g y x = g' y x) : TablesCount ids tables f' g' where
  indegree x hx := by rw [h.indegree x hx, hf x hx]
  dependents y hy := by
    obtain ⟨l, hl, hcount⟩ := h.dependents y hy
    exact ⟨l, hl, fun x => (hcount x).trans (hg y hy x)⟩

theorem TablesCount.countDependency {tables : DependencyTables} {f : JSString → ℕ}
    {g : JSString → JSString → ℕ} (h : TablesCount ids tables f g) {id : JSString} (hid : id ∈ ids)
    (depId : JSString) :
    TablesCount ids (countDependency ids id tables depId)
      (fun x => f x + if x = id ∧ depId ∈ ids then 1 else 0)
      (fun y x => g y x + if x = id ∧ y = depId then 1 else 0) := by
  unfold MindooDB.countDependency
  by_cases hdep : depId ∈ ids
  swap
  · rw [if_neg hdep]
    refine h.congr (fun x _ => by simp [hdep]) fun y hy x => ?_
    have hne : y ≠ depId := fun heq => hdep (heq ▸ hy)
    simp [hne]
  rw [if_pos hdep]
  constructor
  · intro x hx
    rw [LinkedMap.get?_set]
    split
    · rename_i hxid
      subst hxid
      simp [h.indegree x hx, hdep]
    · rename_i hxid
      simp [h.indegree x hx, hxid]
  · intro y hy
    obtain ⟨l, hl, hcount⟩ := h.dependents y hy
    simp only [LinkedMap.get?_set]
    split
    · rename_i hydep
      subst hydep
      refine ⟨l ++ [id], by simp [hl], fun x => ?_⟩
      rw [count_append, hcount]
      by_cases hx : x = id
      · simp [hx]
      · simp [hx, Ne.symm hx]
    · rename_i hydep
      exact ⟨l, hl, fun x => by simp [hcount, hydep]⟩

theorem TablesCount.foldl_countDependency {tables : DependencyTables} {f : JSString → ℕ}
    {g : JSString → JSString → ℕ} (h : TablesCount ids tables f g) {id : JSString} (hid : id ∈ ids)
    (deps : List JSString) :
    TablesCount ids (deps.foldl (MindooDB.countDependency ids id) tables)
      (fun x => f x + if x = id then deps.countP (· ∈ ids) else 0)
      (fun y x => g y x + if x = id then deps.count y else 0) := by
  induction deps generalizing tables f g with
  | nil => exact h.congr (fun x _ => by simp) fun y _ x => by simp
  | cons d deps ih =>
    refine (ih (h.countDependency hid d)).congr (fun x _ => ?_) fun y _ x => ?_
    · by_cases hx : x = id
      · by_cases hd : d ∈ ids
        · simp [hx, hd]
          omega
        · simp [hx, hd]
      · simp [hx]
    · by_cases hx : x = id
      · by_cases hy : y = d
        · simp [hx, hy]
          omega
        · simp [hx, hy, count_cons_of_ne (Ne.symm hy)]
      · simp [hx]

theorem tablesCount_empty (ids : LinkedSet JSString) (l : List JSString) (hl : ∀ x ∈ ids, x ∈ l)
    (tables : DependencyTables) :
    TablesCount ids (l.foldl
      (fun tables id => ⟨tables.indegree.set id 0, tables.dependents.set id []⟩) tables)
      (fun _ => 0) (fun _ _ => 0) := by
  have hget : ∀ (l : List JSString) (tables : DependencyTables) (x : JSString),
      x ∈ l ∨ tables.indegree.get? x = some 0 ∧ tables.dependents.get? x = some [] →
      (l.foldl (fun tables id => (⟨tables.indegree.set id 0, tables.dependents.set id []⟩ :
        DependencyTables)) tables).indegree.get? x = some 0 ∧
      (l.foldl (fun tables id => (⟨tables.indegree.set id 0, tables.dependents.set id []⟩ :
        DependencyTables)) tables).dependents.get? x = some [] := by
    intro l
    induction l with
    | nil => intro tables x h; simpa using h
    | cons id l ih =>
      intro tables x h
      refine ih _ x ?_
      by_cases hx : x = id
      · exact .inr (by simp [hx])
      · rcases h with h | h
        · exact .inl ((mem_cons.mp h).resolve_left hx)
        · exact .inr (by simpa [LinkedMap.get?_set, hx] using h)
  refine ⟨fun x hx => ?_, fun y hy => ⟨[], (hget l tables y (.inl (hl y hy))).2, fun _ => rfl⟩⟩
  exact (hget l tables x (.inl (hl x hx))).1

variable (ids) (replayById : EntryMap)

/-- **The tables count the dependencies within the set**, each as often as it is listed. -/
theorem tablesCount_buildDependencyTables :
    TablesCount ids (buildDependencyTables ids replayById)
      (fun x => (dependenciesOf replayById x).countP (· ∈ ids))
      (fun y x => if x ∈ ids then (dependenciesOf replayById x).count y else 0) := by
  have hfold : ∀ (l : List JSString) (tables : DependencyTables) (f : JSString → ℕ)
      (g : JSString → JSString → ℕ), l.Nodup → (∀ x ∈ l, x ∈ ids) → TablesCount ids tables f g →
      TablesCount ids (l.foldl (fun tables id =>
          (dependenciesOf replayById id).foldl (countDependency ids id) tables) tables)
        (fun x => f x + if x ∈ l then (dependenciesOf replayById x).countP (· ∈ ids) else 0)
        (fun y x => g y x + if x ∈ l then (dependenciesOf replayById x).count y else 0) := by
    intro l
    induction l with
    | nil =>
      intro tables f g _ _ h
      exact h.congr (fun x _ => by simp) fun y _ x => by simp
    | cons id l ih =>
      intro tables f g hnodup hsub h
      obtain ⟨hid, hl⟩ := nodup_cons.mp hnodup
      have hstep := h.foldl_countDependency (hsub id mem_cons_self) (dependenciesOf replayById id)
      refine (ih _ _ _ hl (fun x hx => hsub x (mem_cons_of_mem _ hx)) hstep).congr
        (fun x _ => ?_) fun y _ x => ?_
      · by_cases hx : x = id
        · simp [hx, hid]
        · simp [hx]
      · by_cases hx : x = id
        · simp [hx, hid]
        · simp [hx]
  have hall := hfold ids.toList _ _ _ ids.nodup (fun x hx => hx)
    (tablesCount_empty ids ids.toList (fun x hx => hx) ⟨∅, ∅⟩)
  refine hall.congr (fun x hx => ?_) fun y _ x => ?_
  · rw [Nat.zero_add, if_pos (LinkedSet.mem_def.mp hx)]
  · rw [Nat.zero_add]
    rfl

end Tables

/-! ## One round -/

/-- **Releasing the dependents of an emitted id.**  Each in-degree drops by the number of times the
id is listed, and those that reach zero join the queue, once each. -/
theorem foldl_release (l : List JSString) (n : JSString → ℕ)
    (indegree : LinkedMap JSString ℤ) (queue : List JSString)
    (hn : ∀ z ∈ l, indegree.get? z = some (n z : ℤ) ∧ l.count z ≤ n z) :
    ∃ released : List JSString, (l.foldl release (indegree, queue)).2 = queue ++ released ∧
      released.Nodup ∧ (∀ z, z ∈ released ↔ z ∈ l ∧ n z = l.count z) ∧
      ∀ z, (l.foldl release (indegree, queue)).1.get? z
        = if z ∈ l then some ((n z : ℤ) - l.count z) else indegree.get? z := by
  induction l generalizing n indegree queue with
  | nil => exact ⟨[], by simp⟩
  | cons y l ih =>
    obtain ⟨hget, hle⟩ := hn y mem_cons_self
    rw [count_cons_self] at hle
    let n' : JSString → ℕ := fun z => if z = y then n z - 1 else n z
    have hn' : ∀ z ∈ l, (release (indegree, queue) y).1.get? z = some (n' z : ℤ) ∧
        l.count z ≤ n' z := by
      intro z hz
      simp only [release, orFalsy_zero, hget, Option.getD_some, LinkedMap.get?_set, n']
      by_cases hzy : z = y
      · subst hzy
        simp only [if_true, Option.some.injEq]
        omega
      · have hrest := hn z (mem_cons_of_mem _ hz)
        rw [count_cons_of_ne (Ne.symm hzy)] at hrest
        simpa [hzy] using hrest
    obtain ⟨released, hqueue, hnodup, hmem, hcounts⟩ :=
      ih n' _ (release (indegree, queue) y).2 hn'
    rw [foldl_cons]
    have hzero : (release (indegree, queue) y).2 = if n y = 1 then queue ++ [y] else queue := by
      simp only [release, orFalsy_zero, hget, Option.getD_some]
      exact if_congr (by omega) rfl rfl
    have hcount : ∀ z, z ≠ y → (y :: l).count z = l.count z := fun z hz =>
      count_cons_of_ne (Ne.symm hz)
    refine ⟨(if n y = 1 then [y] else []) ++ released, ?_, ?_, fun z => ?_, fun z => ?_⟩
    · rw [hqueue, hzero]
      split <;> simp
    · split
      · rename_i hone
        refine nodup_cons.mpr ⟨fun hy => ?_, hnodup⟩
        have hpos := count_pos_iff.mpr ((hmem y).mp hy).1
        omega
      · exact hnodup
    · by_cases hzy : z = y
      · subst hzy
        have hpos : z ∈ l ↔ 0 < l.count z := count_pos_iff.symm
        rw [mem_append, hmem, count_cons_self, hpos]
        simp only [n', if_true, mem_cons, true_or, true_and]
        by_cases hone : n z = 1
        · simp only [if_pos hone, mem_singleton, true_or, true_iff]
          omega
        · simp only [if_neg hone, not_mem_nil, false_or]
          omega
      · rw [mem_append, hmem, hcount z hzy, mem_cons]
        have hnot : z ∉ (if n y = 1 then [y] else []) := by split <;> simp [hzy]
        simp [hnot, hzy, n']
    · rw [hcounts]
      simp only [release, orFalsy_zero, hget, Option.getD_some, LinkedMap.get?_set, n']
      by_cases hzy : z = y
      · subst hzy
        rw [count_cons_self, if_pos mem_cons_self]
        split
        · simp only [if_true, Option.some.injEq]
          omega
        · rename_i hz
          rw [count_eq_zero_of_not_mem hz]
          simp
      · simp [hzy, hcount z hzy, mem_cons]

section Kahn

variable (ids : LinkedSet JSString) (replayById : EntryMap)

/-- The dependencies of an id that are still to be emitted, each as often as it is listed. -/
def waitsFor (ordered : List JSString) (x : JSString) : ℕ :=
  (dependenciesOf replayById x).countP fun d => d ∈ ids ∧ d ∉ ordered

/-- `x` needs `y`, by the dependency ids. -/
def Needs (x y : JSString) : Prop := y ∈ dependenciesOf replayById x

/-- The emitted ids, as the greedy order sees them. -/
abbrev emitted (ordered : List JSString) : Set JSString := {x | x ∈ ordered}

/-- What holds between two rounds of the loop. -/
structure KahnInvariant (indegree : LinkedMap JSString ℤ) (queue ordered : List JSString) :
    Prop where
  waiting : ∀ x ∈ ids, indegree.get? x = some (waitsFor ids replayById ordered x : ℤ)
  sorted : queue.Pairwise (· ≤ ·)
  nodup : queue.Nodup
  ready : ∀ x, x ∈ queue ↔
    Ready {x | x ∈ ids} (Needs replayById) (emitted ordered) x
  within : ∀ x ∈ ordered, x ∈ ids
  distinct : ordered.Nodup
  closed : ∀ x ∈ ordered, ∀ d ∈ ids, Needs replayById x d → d ∈ ordered

variable {ids replayById}

theorem waitsFor_eq_zero_iff {ordered : List JSString} {x : JSString} :
    waitsFor ids replayById ordered x = 0
      ↔ ∀ d ∈ ids, Needs replayById x d → d ∈ ordered := by
  simp only [waitsFor, countP_eq_zero, decide_eq_true_eq, not_and, not_not, Needs]
  exact ⟨fun h d hd hx => h d hx hd, fun h d hx hd => h d hd hx⟩

theorem ready_iff_waitsFor {ordered : List JSString} {x : JSString} :
    Ready {x | x ∈ ids} (Needs replayById) (emitted ordered) x
      ↔ x ∈ ids ∧ x ∉ ordered ∧ waitsFor ids replayById ordered x = 0 := by
  rw [waitsFor_eq_zero_iff]
  rfl

/-- Emitting an id releases as many waits as the id is listed. -/
theorem waitsFor_append {ordered : List JSString} {id : JSString} (hid : id ∈ ids)
    (hnew : id ∉ ordered) (x : JSString) :
    waitsFor ids replayById ordered x
      = waitsFor ids replayById (ordered ++ [id]) x + (dependenciesOf replayById x).count id := by
  simp only [waitsFor]
  induction dependenciesOf replayById x with
  | nil => rfl
  | cons d deps ih =>
    rw [countP_cons, countP_cons, ih]
    by_cases hd : d = id
    · subst hd
      simp [hid, hnew]
      omega
    · rw [count_cons_of_ne hd]
      have hsame : decide (d ∈ ids ∧ d ∉ ordered ++ [id]) = decide (d ∈ ids ∧ d ∉ ordered) := by
        simp [hd]
      rw [hsame]
      omega

/-- **A round keeps the invariant.** -/
theorem KahnInvariant.round {indegree : LinkedMap JSString ℤ} {queue ordered : List JSString}
    {id : JSString} (h : KahnInvariant ids replayById indegree (id :: queue) ordered)
    {dependents : List JSString}
    (hdependents : ∀ x, dependents.count x
      = if x ∈ ids then (dependenciesOf replayById x).count id else 0) :
    KahnInvariant ids replayById (dependents.foldl release (indegree, queue)).1
      (sort (dependents.foldl release (indegree, queue)).2) (ordered ++ [id]) := by
  obtain ⟨hid, hnew, hdone⟩ := ready_iff_waitsFor.mp ((h.ready id).mp mem_cons_self)
  have hwaits : ∀ x, waitsFor ids replayById ordered x = waitsFor ids replayById (ordered ++ [id]) x
      + (dependenciesOf replayById x).count id := waitsFor_append hid hnew
  have hmem : ∀ x, x ∈ dependents ↔ x ∈ ids ∧ Needs replayById x id := by
    intro x
    rw [← count_pos_iff, hdependents]
    by_cases hx : x ∈ ids
    · rw [if_pos hx, count_pos_iff]
      exact ⟨fun hd => ⟨hx, hd⟩, And.right⟩
    · simp [hx]
  have hn : ∀ z ∈ dependents, indegree.get? z = some (waitsFor ids replayById ordered z : ℤ) ∧
      dependents.count z ≤ waitsFor ids replayById ordered z := by
    intro z hz
    have hzids := ((hmem z).mp hz).1
    refine ⟨h.waiting z hzids, ?_⟩
    rw [hdependents, if_pos hzids, hwaits z]
    omega
  obtain ⟨released, hqueue, hreleased, hjoin, hcounts⟩ :=
    foldl_release dependents (waitsFor ids replayById ordered) indegree queue hn
  -- A dependent of `id` waited for `id`: it was neither emitted nor ready.
  have hfresh : ∀ x ∈ dependents, x ∉ ordered ∧ x ≠ id ∧ x ∉ id :: queue := by
    intro x hx
    obtain ⟨hxids, hxid⟩ := (hmem x).mp hx
    have hpos : waitsFor ids replayById ordered x ≠ 0 := fun hzero =>
      hnew (waitsFor_eq_zero_iff.mp hzero id hid hxid)
    refine ⟨fun hxo => hnew (h.closed x hxo id hid hxid), ?_, fun hq => ?_⟩
    · rintro rfl
      exact hpos hdone
    · exact hpos (ready_iff_waitsFor.mp ((h.ready x).mp hq)).2.2
  have hjoin' : ∀ x, x ∈ released ↔
      x ∈ dependents ∧ waitsFor ids replayById (ordered ++ [id]) x = 0 := by
    intro x
    rw [hjoin]
    refine and_congr_right fun hx => ?_
    rw [hdependents, if_pos ((hmem x).mp hx).1, hwaits x]
    omega
  obtain ⟨hidqueue, hqueueNodup⟩ := nodup_cons.mp h.nodup
  refine ⟨fun x hx => ?_, pairwise_sort _, ?_, fun x => ?_, ?_, ?_, ?_⟩
  · rw [hcounts]
    have hwx := hwaits x
    have hcx := hdependents x
    rw [if_pos hx] at hcx
    split
    · congr 1
      omega
    · rename_i hxl
      rw [h.waiting x hx]
      rw [count_eq_zero_of_not_mem hxl] at hcx
      congr 2
      omega
  · rw [(perm_sort _).nodup_iff, hqueue]
    refine nodup_append.mpr ⟨hqueueNodup, hreleased, fun x hx y hy hxy => ?_⟩
    subst hxy
    exact (hfresh x ((hjoin' x).mp hy).1).2.2 (mem_cons_of_mem _ hx)
  · rw [(perm_sort _).mem_iff, hqueue, mem_append, hjoin', ready_iff_waitsFor]
    constructor
    · rintro (hx | ⟨hx, hzero⟩)
      · obtain ⟨hxids, hxo, hzero⟩ := ready_iff_waitsFor.mp ((h.ready x).mp (mem_cons_of_mem _ hx))
        have hne : x ≠ id := fun heq => hidqueue (heq ▸ hx)
        refine ⟨hxids, by simp [hxo, hne], ?_⟩
        have := hwaits x
        omega
      · obtain ⟨hxo, hne, -⟩ := hfresh x hx
        exact ⟨((hmem x).mp hx).1, by simp [hxo, hne], hzero⟩
    · rintro ⟨hxids, hxo, hzero⟩
      obtain ⟨hxo, hne⟩ : x ∉ ordered ∧ x ≠ id := by simpa using hxo
      by_cases hx : x ∈ dependents
      · exact .inr ⟨hx, hzero⟩
      · have hcx := hdependents x
        rw [if_pos hxids, count_eq_zero_of_not_mem hx] at hcx
        have hready : x ∈ id :: queue := (h.ready x).mpr
          (ready_iff_waitsFor.mpr ⟨hxids, hxo, by rw [hwaits x, hzero, ← hcx]⟩)
        exact .inl ((mem_cons.mp hready).resolve_left hne)
  · intro x hx
    rcases mem_append.mp hx with hx | hx
    · exact h.within x hx
    · exact mem_singleton.mp hx ▸ hid
  · refine nodup_append.mpr ⟨h.distinct, nodup_singleton id, fun x hx y hy hxy => ?_⟩
    exact hnew (mem_singleton.mp hy ▸ hxy ▸ hx)
  · intro x hx d hd hxd
    refine mem_append_left _ ?_
    rcases mem_append.mp hx with hx | hx
    · exact h.closed x hx d hd hxd
    · rw [mem_singleton.mp hx] at hxd
      exact waitsFor_eq_zero_iff.mp hdone d hd hxd

/-- **The loop ends, and emits the greedy order of what is left.** -/
theorem KahnInvariant.kahnLoop {dependents : LinkedMap JSString (List JSString)}
    (hdependents : ∀ y ∈ ids, ∃ l, dependents.get? y = some l ∧ ∀ x, l.count x
      = if x ∈ ids then (dependenciesOf replayById x).count y else 0)
    {fuel : ℕ} {indegree : LinkedMap JSString ℤ} {queue ordered : List JSString}
    (h : KahnInvariant ids replayById indegree queue ordered)
    (hfuel : ids.size ≤ fuel + ordered.length) :
    ∃ l, kahnLoop dependents fuel indegree queue ordered = some (ordered ++ l) ∧
      Greedy {x | x ∈ ids} (Needs replayById) (emitted ordered) l := by
  induction fuel generalizing indegree queue ordered with
  | zero =>
    -- Everything was emitted, so nothing is ready.
    have hperm : ordered.Perm ids.toList :=
      ((subperm_of_subset h.distinct h.within).perm_of_length_le (by simpa [LinkedSet.size] using hfuel))
    have hempty : ∀ x, ¬ Ready {x | x ∈ ids} (Needs replayById) (emitted ordered) x :=
      fun x hx => hx.2.1 (hperm.mem_iff.mpr hx.1)
    obtain rfl : queue = [] := eq_nil_iff_forall_not_mem.mpr fun x hx => hempty x ((h.ready x).mp hx)
    exact ⟨[], by simp [MindooDB.kahnLoop], .stop hempty⟩
  | succ fuel ih =>
    rcases queue with _ | ⟨id, queue⟩
    · refine ⟨[], by simp [MindooDB.kahnLoop], .stop fun x hx => ?_⟩
      simpa using (h.ready x).mpr hx
    have hready := (h.ready id).mp mem_cons_self
    obtain ⟨l, hl, hcount⟩ := hdependents id hready.1
    obtain ⟨rest, hrest, hgreedy⟩ := ih (h.round hcount) (by simp; omega)
    refine ⟨id :: rest, ?_, .pick hready (fun y hy => ?_) ?_⟩
    · simp only [MindooDB.kahnLoop, hl, Option.getD_some, hrest, List.append_assoc,
        singleton_append]
    · rcases mem_cons.mp ((h.ready y).mpr hy) with rfl | hy
      · exact le_rfl
      · exact (pairwise_cons.mp h.sorted).1 y hy
    · have hinsert : emitted (ordered ++ [id]) = insert id (emitted ordered) := by
        ext x
        simp [emitted, or_comm]
      rwa [hinsert] at hgreedy

/-! ## The order -/

variable (ids replayById)

/-- **Kahn's algorithm emits the greedy order**, and falls back on the plain sort when that order
does not reach every id. -/
theorem topologicalByDependencies_eq :
    ∃ l, Greedy {x | x ∈ ids} (Needs replayById) ∅ l ∧
      topologicalByDependencies ids replayById
        = if l.length ≠ ids.size then sort ids.toList else l := by
  have htables := tablesCount_buildDependencyTables ids replayById
  obtain ⟨tables, htab⟩ : ∃ tables, tables = buildDependencyTables ids replayById := ⟨_, rfl⟩
  rw [← htab] at htables
  let start := ids.toList.filter fun id => orFalsy (tables.indegree.get? id) 0 = 0
  have hcount : ∀ x, (dependenciesOf replayById x).countP (· ∈ ids)
      = waitsFor ids replayById [] x := fun x => by simp [waitsFor]
  have hempty : emitted [] = ∅ := by simp [emitted]
  have hinit : KahnInvariant ids replayById tables.indegree (sort start) [] := by
    refine ⟨fun x hx => by rw [htables.indegree x hx, hcount], pairwise_sort _, ?_,
      fun x => ?_, by simp, nodup_nil, by simp⟩
    · exact (perm_sort _).nodup_iff.mpr (ids.nodup.filter _)
    · rw [(perm_sort _).mem_iff, ready_iff_waitsFor, ← hcount]
      simp only [start, mem_filter, orFalsy_zero, decide_eq_true_eq, not_mem_nil,
        not_false_eq_true, true_and, ← LinkedSet.mem_def]
      refine and_congr_right fun hx => ?_
      rw [htables.indegree x hx, Option.getD_some, Int.natCast_eq_zero]
  obtain ⟨l, hloop, hgreedy⟩ := hinit.kahnLoop htables.dependents
    (show ids.size ≤ ids.size + ([] : List JSString).length by simp)
  rw [hempty] at hgreedy
  refine ⟨l, hgreedy, ?_⟩
  simp only [topologicalByDependencies, ← htab]
  rw [show MindooDB.kahnLoop _ _ _ _ _ = _ from hloop]
  rfl

variable {ids replayById}

/-- The order lists every id, also where there are cycles. -/
theorem mem_topologicalByDependencies {x : JSString} :
    x ∈ topologicalByDependencies ids replayById ↔ x ∈ ids := by
  obtain ⟨l, hgreedy, heq⟩ := topologicalByDependencies_eq ids replayById
  rw [heq]
  split
  · exact (perm_sort _).mem_iff
  · rename_i hlength
    have hsub : l.Subperm ids.toList := hgreedy.nodup.subperm fun y hy => (hgreedy.mem hy).1
    exact (hsub.perm_of_length_le (not_not.mp hlength).ge).mem_iff

/-- **Without cycles the order lists every id once, behind what it needs.** -/
theorem topologicalByDependencies_of_acyclic
    (hacyclic : Acyclic fun x y => Needs replayById x y ∧ y ∈ ids) :
    Greedy {x | x ∈ ids} (Needs replayById) ∅
        (topologicalByDependencies ids replayById) ∧
      ∀ x, x ∈ topologicalByDependencies ids replayById ↔ x ∈ ids := by
  obtain ⟨l, hgreedy, heq⟩ := topologicalByDependencies_eq ids replayById
  have hmem : ∀ x, x ∈ l ↔ x ∈ ids := fun x =>
    ⟨fun hx => (hgreedy.mem hx).1, fun hx =>
      (hgreedy.greedyBy.exhausts (finite_toSet ids.toList) hacyclic hx).resolve_left (by simp)⟩
  have hlength : l.length = ids.size :=
    ((perm_ext_iff_of_nodup hgreedy.nodup ids.nodup).mpr hmem).length_eq
  rw [heq, if_neg (not_not.mpr hlength)]
  exact ⟨hgreedy, hmem⟩

/-- **The order depends on the set and its dependencies only.** -/
theorem topologicalByDependencies_congr {ids' : LinkedSet JSString} {replayById' : EntryMap}
    (hids : ∀ x, x ∈ ids ↔ x ∈ ids')
    (hneeds : ∀ x y, Needs replayById x y ↔ Needs replayById' x y) :
    topologicalByDependencies ids replayById = topologicalByDependencies ids' replayById' := by
  obtain ⟨l, hgreedy, heq⟩ := topologicalByDependencies_eq ids replayById
  obtain ⟨l', hgreedy', heq'⟩ := topologicalByDependencies_eq ids' replayById'
  have hset : {x | x ∈ ids} = {x | x ∈ ids'} := Set.ext hids
  have hrel : Needs replayById = Needs replayById' := by
    funext x y
    exact propext (hneeds x y)
  rw [← hset, ← hrel] at hgreedy'
  have hperm : ids.toList.Perm ids'.toList := (perm_ext_iff_of_nodup ids.nodup ids'.nodup).mpr hids
  rw [heq, heq', hgreedy.unique hgreedy', sort_eq_of_perm hperm, LinkedSet.size,
    LinkedSet.size, hperm.length_eq]

end Kahn

end MindooDB
