import MindooDB.Lib.ReadyOrder
import MindooDB.Planner.MaterializationPlanner

/-!
# Planner/Coverage — what the planner's two walks collect

The dependency graph of a document, as its entries state it, and the three questions the planner
asks of it: which entries are heads, which lie below a head, which lie below the roots of a
snapshot.  None of them mentions the order of the entries; `mem_coveredBySnapshot` and
`mem_latestReachable` say that the planner's sets answer them.
-/

namespace MindooDB

open Relation

variable (entries : List StoreEntryMetadata)

/-- Some replay entry has this id. -/
def IsReplayId (id : JSString) : Prop := ∃ e ∈ entries, isReplayEntry e = true ∧ e.id = id

/-- The replay entry `id` names the replay entry `dep` as a dependency. -/
def DependsOn (id dep : JSString) : Prop :=
  (∃ e ∈ entries, isReplayEntry e = true ∧ e.id = id ∧ dep ∈ e.dependencyIds) ∧
    IsReplayId entries dep

/-- A replay entry no replay entry depends on. -/
def IsHead (id : JSString) : Prop := IsReplayId entries id ∧ ∀ id', ¬ DependsOn entries id' id

/-- A replay entry below some head. -/
def IsLatest (id : JSString) : Prop :=
  ∃ head, IsHead entries head ∧ ReflTransGen (DependsOn entries) head id

/-- **The downward closure of a snapshot's roots**, through the replay entries present. -/
def Covers (snapshot : StoreEntryMetadata) (id : JSString) : Prop :=
  ∃ root ∈ snapshotRoots snapshot, IsReplayId entries root ∧
    ReflTransGen (DependsOn entries) root id

/-- How much of the latest state a snapshot covers. -/
noncomputable def coverage (snapshot : StoreEntryMetadata) : ℕ :=
  {id | IsLatest entries id ∧ Covers entries snapshot id}.ncard

variable {entries}

theorem DependsOn.isReplayId {id dep : JSString} (h : DependsOn entries id dep) :
    IsReplayId entries dep := h.2

theorem DependsOn.isReplayId_left {id dep : JSString} (h : DependsOn entries id dep) :
    IsReplayId entries id := by
  obtain ⟨⟨e, he, hr, hid, -⟩, -⟩ := h
  exact ⟨e, he, hr, hid⟩

theorem isReplayId_of_reflTransGen {a b : JSString} (ha : IsReplayId entries a)
    (h : ReflTransGen (DependsOn entries) a b) : IsReplayId entries b := by
  rcases ReflTransGen.cases_tail h with rfl | ⟨c, -, hcb⟩
  · exact ha
  · exact hcb.isReplayId

theorem Covers.isReplayId {snapshot : StoreEntryMetadata} {id : JSString}
    (h : Covers entries snapshot id) : IsReplayId entries id := by
  obtain ⟨root, -, hroot, hid⟩ := h
  exact isReplayId_of_reflTransGen hroot hid

theorem IsLatest.isReplayId {id : JSString} (h : IsLatest entries id) : IsReplayId entries id := by
  obtain ⟨head, hhead, hid⟩ := h
  exact isReplayId_of_reflTransGen hhead.1 hid

theorem finite_isReplayId : {id | IsReplayId entries id}.Finite := by
  refine (List.finite_toSet (entries.map fun e => e.id)).subset ?_
  rintro id ⟨e, he, -, rfl⟩
  exact List.mem_map_of_mem he

/-- **Without cycles every replay entry is part of the latest state.** -/
theorem isLatest_of_acyclic (hacyclic : ReadyOrder.Acyclic (DependsOn entries)) {id : JSString}
    (hid : IsReplayId entries id) : IsLatest entries id := by
  have hswap : ReadyOrder.Acyclic fun a b => DependsOn entries b a :=
    fun a ha => hacyclic a (Relation.transGen_swap.mp ha)
  let above : Set JSString := {a | ReflTransGen (DependsOn entries) a id}
  have habove : above.Finite := by
    refine (finite_isReplayId : {a | IsReplayId entries a}.Finite).subset fun a ha => ?_
    rcases ReflTransGen.cases_head ha with rfl | ⟨b, hab, -⟩
    · exact hid
    · exact hab.isReplayId_left
  obtain ⟨head, hhead, hmax⟩ := ReadyOrder.exists_minimal habove hswap ⟨id, .refl⟩
  refine ⟨head, ⟨?_, fun b hb => hmax b (ReflTransGen.head hb hhead) hb⟩, hhead⟩
  rcases ReflTransGen.cases_head hhead with rfl | ⟨b, hab, -⟩
  · exact hid
  · exact hab.isReplayId_left

/-! ## The entry map -/

section EntryMap

variable (hids : (entries.map fun e => e.id).Nodup)

/-- The planner's `replayById`. -/
abbrev replayMap (entries : List StoreEntryMetadata) : EntryMap :=
  entriesById (entries.filter isReplayEntry)

include hids

theorem get?_replayMap {id : JSString} {e : StoreEntryMetadata} :
    (replayMap entries).get? id = some e ↔ e ∈ entries ∧ isReplayEntry e = true ∧ e.id = id := by
  have hnodup : (((entries.filter isReplayEntry).map fun e => (e.id, e)).map Prod.fst).Nodup := by
    rw [List.map_map]
    exact hids.sublist (List.filter_sublist.map _)
  rw [replayMap, entriesById, LinkedMap.get?_ofList hnodup]
  simp only [List.mem_map, List.mem_filter, Prod.mk.injEq]
  constructor
  · rintro ⟨e', ⟨he', hr⟩, rfl, rfl⟩
    exact ⟨he', hr, rfl⟩
  · rintro ⟨he, hr, rfl⟩
    exact ⟨e, ⟨he, hr⟩, rfl, rfl⟩

theorem has_replayMap {id : JSString} :
    (replayMap entries).has id = true ↔ IsReplayId entries id := by
  rw [LinkedMap.has_iff]
  exact exists_congr fun e => get?_replayMap hids

theorem mem_dependenciesOf {id dep : JSString} :
    dep ∈ dependenciesOf (replayMap entries) id
      ↔ ∃ e ∈ entries, isReplayEntry e = true ∧ e.id = id ∧ dep ∈ e.dependencyIds := by
  unfold dependenciesOf
  constructor
  · intro h
    split at h
    · simp at h
    · rename_i e he
      obtain ⟨hmem, hr, hid⟩ := (get?_replayMap hids).mp he
      exact ⟨e, hmem, hr, hid, h⟩
  · rintro ⟨e, he, hr, hid, hdep⟩
    rw [(get?_replayMap hids).mpr ⟨he, hr, hid⟩]
    exact hdep

theorem dependsOn_iff {id dep : JSString} :
    DependsOn entries id dep
      ↔ dep ∈ dependenciesOf (replayMap entries) id ∧ (replayMap entries).has dep = true := by
  rw [mem_dependenciesOf hids, has_replayMap hids]
  rfl

/-! ## The walks -/

/-- **A snapshot covers the downward closure of its roots.** -/
theorem mem_coveredBySnapshot {snapshot : StoreEntryMetadata} {id : JSString} :
    id ∈ coveredBySnapshot (some snapshot) (replayMap entries) ↔ Covers entries snapshot id := by
  have hvertices : ∀ v, dependenciesOf (replayMap entries) v ≠ [] → v ∈ (replayMap entries).keys := by
    intro v hv
    rw [LinkedMap.mem_keys_iff]
    unfold dependenciesOf at hv
    split at hv
    · simp at hv
    · exact ⟨_, ‹_›⟩
  have hfuel : (snapshotRoots snapshot).reverse.length
        + ((replayMap entries).keys.map fun v => (dependenciesOf (replayMap entries) v).length).sum
      ≤ walkFuel (replayMap entries) (snapshotRoots snapshot) := by
    rw [walkFuel, List.length_reverse]
  obtain ⟨covered, hwalk, hcovered⟩ := Walk.walk_spec (replayMap entries).has
    (fun v _ => hvertices v) hfuel
  simp only [coveredBySnapshot, hwalk, Option.getD_some, hcovered, Walk.Reachable, Covers,
    List.mem_reverse, has_replayMap hids]
  refine exists_congr fun root => and_congr_right fun _ => and_congr_right fun _ => ?_
  have hedge : Walk.Edge (replayMap entries).has (dependenciesOf (replayMap entries))
      = DependsOn entries := by
    funext a b
    exact propext (dependsOn_iff hids).symm
  rw [hedge]

theorem mem_referencedIds {id : JSString} :
    id ∈ referencedIds (replayMap entries) (entries.filter isReplayEntry)
      ↔ ∃ id', DependsOn entries id' id := by
  have hinner : ∀ (deps : List JSString) (s : LinkedSet JSString),
      id ∈ deps.foldl (fun s d => if (replayMap entries).has d then s.add d else s) s
        ↔ id ∈ s ∨ id ∈ deps ∧ (replayMap entries).has id = true := by
    intro deps
    induction deps with
    | nil => simp
    | cons d deps ih =>
      intro s
      rw [List.foldl_cons, ih]
      by_cases hd : (replayMap entries).has d = true
      · simp only [if_pos hd, LinkedSet.mem_add, List.mem_cons]
        grind
      · simp only [if_neg hd, List.mem_cons]
        grind
  have houter : ∀ (l : List StoreEntryMetadata) (s : LinkedSet JSString),
      id ∈ l.foldl (fun s e => e.dependencyIds.foldl
          (fun s d => if (replayMap entries).has d then s.add d else s) s) s
        ↔ id ∈ s ∨ (∃ e ∈ l, id ∈ e.dependencyIds) ∧ (replayMap entries).has id = true := by
    intro l
    induction l with
    | nil => simp
    | cons e l ih =>
      intro s
      rw [List.foldl_cons, ih, hinner]
      simp only [List.mem_cons, exists_eq_or_imp]
      tauto
  rw [referencedIds, houter]
  simp only [LinkedSet.notMem_empty, false_or, has_replayMap hids, List.mem_filter, DependsOn]
  constructor
  · rintro ⟨⟨e, ⟨he, hr⟩, hdep⟩, hid⟩
    exact ⟨e.id, ⟨e, he, hr, rfl, hdep⟩, hid⟩
  · rintro ⟨-, ⟨e, he, hr, -, hdep⟩, hid⟩
    exact ⟨⟨e, ⟨he, hr⟩, hdep⟩, hid⟩

theorem mem_latestHeads {id : JSString} :
    id ∈ (buildLatestStateReachability (entries.filter isReplayEntry)).1 ↔ IsHead entries id := by
  simp only [buildLatestStateReachability, List.mem_map, List.mem_filter, decide_eq_true_eq,
    mem_referencedIds hids, not_exists, IsHead, IsReplayId]
  constructor
  · rintro ⟨e, ⟨⟨he, hr⟩, hun⟩, rfl⟩
    exact ⟨⟨e, he, hr, rfl⟩, hun⟩
  · rintro ⟨⟨e, he, hr, rfl⟩, hun⟩
    exact ⟨e, ⟨⟨he, hr⟩, hun⟩, rfl⟩

/-- **The latest state is what lies below the heads.** -/
theorem mem_latestReachable {id : JSString} :
    id ∈ (buildLatestStateReachability (entries.filter isReplayEntry)).2 ↔ IsLatest entries id := by
  let succ := fun id => (dependenciesOf (replayMap entries) id).filter (replayMap entries).has
  have hvertices : ∀ v, succ v ≠ [] → v ∈ (replayMap entries).keys := by
    intro v hv
    obtain ⟨d, hd⟩ := List.exists_mem_of_ne_nil _ hv
    obtain ⟨e, he, hr, hid, -⟩ := (mem_dependenciesOf hids).mp (List.mem_of_mem_filter hd)
    exact LinkedMap.mem_keys_iff.mpr ⟨e, (get?_replayMap hids).mpr ⟨he, hr, hid⟩⟩
  let heads := (buildLatestStateReachability (entries.filter isReplayEntry)).1
  have hfuel : heads.reverse.length + ((replayMap entries).keys.map fun v => (succ v).length).sum
      ≤ walkFuel (replayMap entries) heads := by
    rw [walkFuel, List.length_reverse]
    exact Nat.add_le_add_left (List.sum_le_sum fun v _ => List.length_filter_le _ _) _
  obtain ⟨latest, hwalk, hlatest⟩ :=
    Walk.walk_spec (fun _ => true) (fun v _ => hvertices v) hfuel
  have hget : (buildLatestStateReachability (entries.filter isReplayEntry)).2 = latest :=
    congrArg (fun seen => seen.getD ∅) hwalk
  rw [hget, hlatest, Walk.Reachable, IsLatest]
  have hedge : Walk.Edge (fun _ => true) succ = DependsOn entries := by
    funext a b
    simp only [Walk.Edge, succ, List.mem_filter, and_true, dependsOn_iff hids]
  simp only [List.mem_reverse, heads, mem_latestHeads hids, true_and, hedge]

/-- The planner's score of a snapshot is its coverage. -/
theorem coveredLatestCount_eq (snapshot : StoreEntryMetadata) :
    coveredLatestCount (buildLatestStateReachability (entries.filter isReplayEntry)).2
      (replayMap entries) snapshot = coverage entries snapshot := by
  rw [coveredLatestCount, coverage, List.countP_eq_length_filter, Nat.cast_inj]
  have hnodup := (buildLatestStateReachability (entries.filter isReplayEntry)).2.nodup.filter
    fun id => id ∈ coveredBySnapshot (some snapshot) (replayMap entries)
  rw [← List.toFinset_card_of_nodup hnodup, ← Set.ncard_coe_finset]
  congr 1
  ext id
  simp only [List.coe_toFinset, Set.mem_ofPred_eq, List.mem_filter, decide_eq_true_eq,
    mem_coveredBySnapshot hids]
  exact and_congr_left' (mem_latestReachable hids)

end EntryMap

end MindooDB
