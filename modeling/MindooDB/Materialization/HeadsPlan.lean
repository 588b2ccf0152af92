import MindooDB.Materialization.Agreement
import MindooDB.Materialization.Fallback

/-!
# Materialization/HeadsPlan — the plan for a set of heads

`computeHeadsMaterializationPlan` of `core/DocumentDagAnalysis.ts`, the second planner: it replays
what lies below the given heads (`BelowHeads`) from a snapshot whose roots all lie there.  Below such
a snapshot everything lies below the heads, so restricting its coverage to the branch takes nothing
away (`mem_collectSnapshotCoveredIds`), and with all heads given the two planners reconstruct one
state.
-/

namespace MindooDB

open LinkedSet Relation

variable (localeCompare : JSString → JSString → ℤ)

def isDagEntry (entry : DocEntryMetadata) : Bool :=
  entry.entryType ∈ docReplayTypes || entry.entryType = .docSnapshot

/-- The entries that a snapshot covers, of those of a branch. -/
def collectSnapshotCoveredIds (snapshot : StoreEntryMetadata) (replayById : EntryMap)
    (branchAncestors : LinkedSet JSString) : LinkedSet JSString :=
  (Walk.walk (fun id => id ∈ branchAncestors && replayById.has id) (dependenciesOf replayById)
    (walkFuel replayById (snapshotRoots snapshot)) (snapshotRoots snapshot).reverse ∅).getD ∅

/-- How many entries a snapshot spares. -/
def scoreSnapshotCoverage (replayById : EntryMap) (branchAncestors : LinkedSet JSString)
    (snapshot : StoreEntryMetadata) : ℤ :=
  (collectSnapshotCoveredIds snapshot replayById branchAncestors).size

/-- The roots of a snapshot are all of the branch. -/
def isEligible (branchAncestors : LinkedSet JSString) (snapshot : StoreEntryMetadata) : Bool :=
  !(snapshotRoots snapshot).isEmpty && (snapshotRoots snapshot).all fun root => root ∈ branchAncestors

/-- The snapshot that spares most. -/
def chooseBestBranchSnapshot (snapshots : List StoreEntryMetadata) (replayById : EntryMap)
    (branchAncestors : LinkedSet JSString) : Option StoreEntryMetadata :=
  (snapshots.foldl (fun best snapshot =>
    if isEligible branchAncestors snapshot then
      considerSnapshot (scoreSnapshotCoverage replayById branchAncestors) best snapshot
    else best) (none, -1)).1

structure DocumentDagHeadsPlan where
  docId : JSString
  headEntryIds : List JSString
  headCreatedAt : ℤ
  headCreatedByPublicKey : JSString
  snapshotEntryId : Option JSString
  entryIdsToApply : List JSString
  branchEntryIds : List JSString
  deriving DecidableEq

/-- `compareByCreatedAtThenId` on the entries of a document. -/
def compareDocEntries (left right : DocEntryMetadata) : ℤ :=
  compareByCreatedAtThenId localeCompare left.toStoreEntryMetadata right.toStoreEntryMetadata

/-- The ancestors of the heads, the heads with them. -/
def branchAncestorsOf (replayById : EntryMap) (heads : List JSString) : LinkedSet JSString :=
  heads.foldl (fun branchAncestors head =>
    branchAncestors.addAll (collectReplayAncestors replayById head).toList) ∅

/-- `docsById` and `replayById` are one map of the source, by what is read of its entries. -/
def computeHeadsMaterializationPlan (docId : JSString) (allEntriesForDoc : List DocEntryMetadata)
    (headEntryIds : List JSString) : Option DocumentDagHeadsPlan :=
  let dagEntries := allEntriesForDoc.filter isDagEntry
  let replayEntries := dagEntries.filter fun entry => isReplayEntry entry.toStoreEntryMetadata
  let docsById := metadataById replayEntries
  let replayById := entriesById (planned replayEntries)
  let resolvedHeads := sortBy (compareDocEntries localeCompare)
    ((ofList headEntryIds).toList.filterMap docsById.get?)
  resolvedHeads.getLast?.map fun latestHead =>
    let branchAncestors := branchAncestorsOf replayById (resolvedHeads.map (·.id))
    let snapshots := (planned dagEntries).filter fun entry => entry.entryType = .docSnapshot
    let bestSnapshot := chooseBestBranchSnapshot snapshots replayById branchAncestors
    let coveredIds := bestSnapshot.elim ∅ fun snapshot =>
      collectSnapshotCoveredIds snapshot replayById branchAncestors
    let uncoveredIds := ofList (branchAncestors.toList.filter fun id => id ∉ coveredIds)
    { docId
      headEntryIds := resolvedHeads.map (·.id)
      headCreatedAt := latestHead.createdAt
      headCreatedByPublicKey := latestHead.createdByPublicKey
      snapshotEntryId := bestSnapshot.map (·.id)
      entryIdsToApply := topologicalByDependencies uncoveredIds replayById
      branchEntryIds := (sortBy (compareDocEntries localeCompare)
        (branchAncestors.toList.filterMap docsById.get?)).map (·.id) }

variable (entries : List StoreEntryMetadata) (heads : List JSString)

/-- An entry is one of the heads that are there, or an ancestor of one. -/
def BelowHeads (id : JSString) : Prop :=
  ∃ head ∈ heads, IsReplayId entries head ∧ ReflTransGen (DependsOn entries) head id

variable {entries heads}

theorem BelowHeads.isReplayId {id : JSString} (h : BelowHeads entries heads id) :
    IsReplayId entries id := by
  obtain ⟨head, -, hhead, hreach⟩ := h
  exact isReplayId_of_reflTransGen hhead hreach

theorem BelowHeads.of_dependsOn {id dep : JSString} (h : BelowHeads entries heads id)
    (hdep : DependsOn entries id dep) : BelowHeads entries heads dep := by
  obtain ⟨head, hmem, hhead, hreach⟩ := h
  exact ⟨head, hmem, hhead, hreach.tail hdep⟩

/-! ## The branch and what a snapshot covers of it -/

section Branch

variable (hids : (entries.map fun e => e.id).Nodup)

include hids

theorem mem_branchAncestorsOf {id : JSString} :
    id ∈ branchAncestorsOf (replayMap entries) heads ↔ BelowHeads entries heads id := by
  rw [branchAncestorsOf, mem_foldl_addAll]
  simp only [notMem_empty, false_or, ← mem_def, mem_collectReplayAncestors hids]
  rfl

variable {snapshot : StoreEntryMetadata}

theorem isEligible_iff : isEligible (branchAncestorsOf (replayMap entries) heads) snapshot = true
    ↔ snapshotRoots snapshot ≠ [] ∧ ∀ root ∈ snapshotRoots snapshot, BelowHeads entries heads root := by
  simp only [isEligible, Bool.and_eq_true, Bool.not_eq_true', List.isEmpty_eq_false_iff,
    List.all_eq_true, decide_eq_true_eq, mem_branchAncestorsOf hids]

/-- **Of a branch that has its roots a snapshot covers all that it covers.** -/
theorem mem_collectSnapshotCoveredIds
    (heligible : isEligible (branchAncestorsOf (replayMap entries) heads) snapshot = true)
    {id : JSString} : id ∈ collectSnapshotCoveredIds snapshot (replayMap entries)
        (branchAncestorsOf (replayMap entries) heads)
      ↔ Covers entries snapshot id := by
  have hroots := ((isEligible_iff hids).mp heligible).2
  obtain ⟨covered, hwalk, hcovered⟩ := Walk.walk_spec
    (fun id => id ∈ branchAncestorsOf (replayMap entries) heads && (replayMap entries).has id)
    (fun v _ => mem_keys_of_dependenciesOf_ne_nil hids)
    (show (snapshotRoots snapshot).reverse.length
        + ((replayMap entries).keys.map fun v => (dependenciesOf (replayMap entries) v).length).sum
        ≤ walkFuel (replayMap entries) (snapshotRoots snapshot) by rw [walkFuel, List.length_reverse])
  have haccepts : ∀ id, (id ∈ branchAncestorsOf (replayMap entries) heads
      && (replayMap entries).has id) = true ↔ BelowHeads entries heads id := fun id => by
    rw [Bool.and_eq_true, decide_eq_true_eq, mem_branchAncestorsOf hids, has_replayMap hids]
    exact and_iff_left_of_imp BelowHeads.isReplayId
  -- a step down stays below the heads
  have hdown : ∀ root ∈ snapshotRoots snapshot, ∀ id, ReflTransGen (DependsOn entries) root id →
      BelowHeads entries heads id ∧ ReflTransGen
        (Walk.Edge (fun id => id ∈ branchAncestorsOf (replayMap entries) heads
          && (replayMap entries).has id) (dependenciesOf (replayMap entries))) root id := by
    intro root hroot id hreach
    induction hreach with
    | refl => exact ⟨hroots root hroot, .refl⟩
    | @tail a b _ hdep ih =>
      have hb := ih.1.of_dependsOn hdep
      exact ⟨hb, ih.2.tail ⟨((dependsOn_iff hids).mp hdep).1, (haccepts b).mpr hb⟩⟩
  rw [collectSnapshotCoveredIds, hwalk, Option.getD_some, hcovered, Walk.Reachable, Covers]
  refine exists_congr fun root => ?_
  rw [List.mem_reverse, haccepts]
  refine and_congr_right fun hroot => ?_
  refine ⟨fun h => ⟨h.1.isReplayId, ?_⟩,
    fun h => ⟨hroots root hroot, (hdown root hroot id h.2).2⟩⟩
  refine ReflTransGen.mono (fun a b hedge => ?_) root id h.2
  exact (dependsOn_iff hids).mpr ⟨hedge.1, (has_replayMap hids).mpr ((haccepts b).mp hedge.2).isReplayId⟩

end Branch

/-- The choice is one of the eligible snapshots. -/
theorem chooseBestBranchSnapshot_spec {snapshots : List StoreEntryMetadata} {replayById : EntryMap}
    {branchAncestors : LinkedSet JSString} {best : StoreEntryMetadata}
    (h : chooseBestBranchSnapshot snapshots replayById branchAncestors = some best) :
    best ∈ snapshots ∧ isEligible branchAncestors best = true := by
  have hfilter : ∀ (l : List StoreEntryMetadata) (start : Option StoreEntryMetadata × ℤ),
      l.foldl (fun best snapshot =>
        if isEligible branchAncestors snapshot then
          considerSnapshot (scoreSnapshotCoverage replayById branchAncestors) best snapshot
        else best) start
      = (l.filter (isEligible branchAncestors)).foldl
        (considerSnapshot (scoreSnapshotCoverage replayById branchAncestors)) start := by
    intro l start
    rw [List.foldl_filter]
  rw [chooseBestBranchSnapshot, hfilter, foldl_considerSnapshot] at h
  have hmax : (snapshots.filter (isEligible branchAncestors)).argmax
      (fun s => toLex (scoreSnapshotCoverage replayById branchAncestors s, s.createdAt))
      = some best := by
    rcases hargmax : (snapshots.filter (isEligible branchAncestors)).argmax
      (fun s => toLex (scoreSnapshotCoverage replayById branchAncestors s, s.createdAt)) with _ | s
    · rw [hargmax] at h
      exact nomatch h
    · rw [hargmax] at h
      exact h
  exact List.mem_filter.mp (List.argmax_mem hmax)

/-! ## The entries of a document -/

section Documents

variable (docs : List DocEntryMetadata)

/-- The entries that the planner keeps by id. -/
abbrev replayDocs : List DocEntryMetadata :=
  (docs.filter isDagEntry).filter fun entry => isReplayEntry entry.toStoreEntryMetadata

variable {docs}

theorem planned_replayDocs : planned (replayDocs docs) = (planned docs).filter isReplayEntry := by
  have hboth : replayDocs docs = docs.filter fun entry => isReplayEntry entry.toStoreEntryMetadata := by
    rw [replayDocs, List.filter_filter]
    refine List.filter_congr fun entry _ => ?_
    rw [isDagEntry, isReplayEntry]
    simp only [Bool.and_eq_left_iff_imp, Bool.or_eq_true, decide_eq_true_eq]
    exact .inl
  rw [hboth, planned, planned, List.filter_map]
  rfl

theorem filter_planned_dagEntries :
    (planned (docs.filter isDagEntry)).filter (fun entry => entry.entryType = .docSnapshot)
      = snapshotsOf (planned docs) := by
  rw [snapshotsOf, planned, planned, List.filter_map, List.filter_map, List.filter_filter]
  refine congrArg _ (List.filter_congr fun entry _ => ?_)
  simp only [isDagEntry, Function.comp_apply, Bool.and_eq_left_iff_imp, Bool.or_eq_true,
    decide_eq_true_eq]
  exact .inr

variable (hids : ((planned docs).map (·.id)).Nodup)

include hids

theorem get?_docsById {id : JSString} {entry : DocEntryMetadata} :
    (metadataById (replayDocs docs)).get? id = some entry ↔ entry ∈ replayDocs docs ∧ entry.id = id := by
  have hnodup : (((replayDocs docs).map fun e => (e.id, e)).map Prod.fst).Nodup := by
    rw [List.map_map]
    rw [planned, List.map_map] at hids
    exact hids.sublist ((List.filter_sublist.trans List.filter_sublist).map _)
  rw [metadataById, LinkedMap.get?_ofList hnodup]
  simp only [List.mem_map, Prod.mk.injEq]
  constructor
  · rintro ⟨e, he, hid, heq⟩
    exact heq ▸ ⟨he, hid⟩
  · rintro ⟨he, hid⟩
    exact ⟨entry, he, hid, rfl⟩

theorem mem_resolvedHeads {headEntryIds : List JSString} {entry : DocEntryMetadata} :
    entry ∈ sortBy (compareDocEntries localeCompare)
        ((ofList headEntryIds).toList.filterMap (metadataById (replayDocs docs)).get?)
      ↔ entry ∈ replayDocs docs ∧ entry.id ∈ headEntryIds := by
  simp only [mem_sortBy, List.mem_filterMap, ← mem_def, mem_ofList, get?_docsById hids]
  constructor
  · rintro ⟨_, hid, he, heq⟩
    exact ⟨he, heq ▸ hid⟩
  · rintro ⟨he, hid⟩
    exact ⟨entry.id, hid, he, rfl⟩

omit hids in
theorem isReplayId_iff_replayDocs {id : JSString} :
    IsReplayId (planned docs) id ↔ ∃ entry ∈ replayDocs docs, entry.id = id := by
  have hmem : ∀ e, e ∈ planned (replayDocs docs) ↔ e ∈ planned docs ∧ isReplayEntry e = true := by
    intro e
    rw [planned_replayDocs, List.mem_filter]
  constructor
  · rintro ⟨e, he, hr, rfl⟩
    obtain ⟨entry, hentry, rfl⟩ := List.mem_map.mp ((hmem e).mpr ⟨he, hr⟩)
    exact ⟨entry, hentry, rfl⟩
  · rintro ⟨entry, hentry, rfl⟩
    obtain ⟨he, hr⟩ := (hmem _).mp (List.mem_map_of_mem hentry)
    exact ⟨entry.toStoreEntryMetadata, he, hr, rfl⟩

end Documents

/-! ## The plan -/

/-- The entries that a plan reconstructs: those to apply, and those that its snapshot covers. -/
def Reconstructs (entries : List StoreEntryMetadata) (chosen : Option StoreEntryMetadata)
    (entryIdsToApply : List JSString) : Set JSString :=
  {id | id ∈ entryIdsToApply ∨ CoveredBy entries chosen id}

/-- A snapshot of the list has this id. -/
def IsSnapshotOf (entries : List StoreEntryMetadata) (snapshotEntryId : Option JSString)
    (chosen : Option StoreEntryMetadata) : Prop :=
  snapshotEntryId = chosen.map (·.id) ∧ ∀ s ∈ chosen, s ∈ snapshotsOf entries

theorem IsSnapshotOf.unique {snapshotEntryId : Option JSString}
    {chosen chosen' : Option StoreEntryMetadata} (hids : (entries.map fun e => e.id).Nodup)
    (h : IsSnapshotOf entries snapshotEntryId chosen)
    (h' : IsSnapshotOf entries snapshotEntryId chosen') : chosen = chosen' := by
  have heq := h.1.symm.trans h'.1
  cases chosen with
  | none =>
    cases chosen' with
    | none => rfl
    | some s' => exact nomatch heq
  | some s =>
    cases chosen' with
    | none => exact nomatch heq
    | some s' =>
      have hs := List.mem_of_mem_filter (h.2 s rfl)
      have hs' := List.mem_of_mem_filter (h'.2 s' rfl)
      rw [List.inj_on_of_nodup_map hids hs hs' (Option.some.inj heq)]

/-- The store planner reconstructs every replay entry. -/
theorem reconstructs_documentPlan (docId : JSString) (includeDiagnostics : Bool)
    (hids : (entries.map fun e => e.id).Nodup) (hacyclic : ReadyOrder.Acyclic (DependsOn entries))
    {chosen : Option StoreEntryMetadata}
    (hchosen : IsSnapshotOf entries
      (computeDocumentMaterializationPlan docId entries includeDiagnostics).snapshotEntryId chosen) :
    Reconstructs entries chosen
        (computeDocumentMaterializationPlan docId entries includeDiagnostics).entryIdsToApply
      = {id | IsReplayId entries id} := by
  obtain ⟨chosen', hid, -, hsnapshot, -, hmem, -⟩ :=
    computeDocumentMaterializationPlan_spec docId entries includeDiagnostics hids hacyclic
  obtain rfl : chosen = chosen' := hchosen.unique hids ⟨hid, fun s hs => (hsnapshot s hs).1⟩
  refine Set.ext fun id => ?_
  rw [Reconstructs, Set.mem_ofPred_eq, hmem]
  constructor
  · rintro (⟨hreplay, -⟩ | ⟨s, -, hcovers⟩)
    · exact hreplay
    · exact hcovers.isReplayId
  · intro hreplay
    by_cases hcovered : CoveredBy entries chosen id
    · exact .inr hcovered
    · exact .inl ⟨hreplay, hcovered⟩

/-- **A plan for some heads** reconstructs what lies below those that are there, and nothing else:
there is one when one of them is there, it applies dependencies first, and for all heads of a
document it reconstructs what the store planner does. -/
theorem computeHeadsMaterializationPlan_spec (localeCompare : JSString → JSString → ℤ)
    (docId : JSString) (docs : List DocEntryMetadata) (hids : ((planned docs).map (·.id)).Nodup)
    (hacyclic : ReadyOrder.Acyclic (DependsOn (planned docs))) (headEntryIds : List JSString) :
    (computeHeadsMaterializationPlan localeCompare docId docs headEntryIds = none
        ↔ ∀ head ∈ headEntryIds, ¬IsReplayId (planned docs) head)
      ∧ ∀ plan, computeHeadsMaterializationPlan localeCompare docId docs headEntryIds = some plan →
        ∃ chosen, IsSnapshotOf (planned docs) plan.snapshotEntryId chosen
          ∧ Reconstructs (planned docs) chosen plan.entryIdsToApply
            = {id | BelowHeads (planned docs) headEntryIds id}
          ∧ (∀ head ∈ headEntryIds, ∀ id ∈ Reconstructs (planned docs) chosen plan.entryIdsToApply,
            TransGen (DependsOn (planned docs)) id head →
              ∃ other ∈ headEntryIds, other ≠ head ∧ ReflTransGen (DependsOn (planned docs)) other id)
          ∧ (∀ before id after, plan.entryIdsToApply = before ++ id :: after →
            ∀ dep, DependsOn (planned docs) id dep →
              CoveredBy (planned docs) chosen dep ∨ dep ∈ before)
          ∧ ((∀ head, head ∈ headEntryIds ↔ IsHead (planned docs) head) →
            ∀ includeDiagnostics chosen', IsSnapshotOf (planned docs)
                (computeDocumentMaterializationPlan docId (planned docs)
                  includeDiagnostics).snapshotEntryId chosen' →
              Reconstructs (planned docs) chosen plan.entryIdsToApply
                = Reconstructs (planned docs) chosen' (computeDocumentMaterializationPlan docId
                  (planned docs) includeDiagnostics).entryIdsToApply) := by
  let entries := planned docs
  let resolvedHeads := sortBy (compareDocEntries localeCompare)
    ((ofList headEntryIds).toList.filterMap (metadataById (replayDocs docs)).get?)
  let branch := branchAncestorsOf (replayMap entries) (resolvedHeads.map (·.id))
  let best := chooseBestBranchSnapshot (snapshotsOf entries) (replayMap entries) branch
  let covered : LinkedSet JSString := best.elim ∅ fun snapshot =>
    collectSnapshotCoveredIds snapshot (replayMap entries) branch
  let uncovered := ofList (branch.toList.filter fun id => id ∉ covered)
  have hplan : ∀ plan, computeHeadsMaterializationPlan localeCompare docId docs headEntryIds = some plan →
      plan.snapshotEntryId = best.map (·.id)
        ∧ plan.entryIdsToApply = topologicalByDependencies uncovered (replayMap entries) := by
    intro plan hsome
    simp only [computeHeadsMaterializationPlan, planned_replayDocs, filter_planned_dagEntries] at hsome
    obtain ⟨latest, -, rfl⟩ := Option.map_eq_some_iff.mp hsome
    exact ⟨rfl, rfl⟩
  have hheads : ∀ id, BelowHeads entries (resolvedHeads.map (·.id)) id
      ↔ BelowHeads entries headEntryIds id := by
    intro id
    refine exists_congr fun head => ?_
    rw [← and_assoc, ← and_assoc]
    refine and_congr_left fun _ => and_congr_left fun hreplay => ?_
    obtain ⟨entry, hentry, rfl⟩ := isReplayId_iff_replayDocs.mp hreplay
    rw [List.mem_map]
    constructor
    · rintro ⟨entry', hentry', hid⟩
      exact hid ▸ ((mem_resolvedHeads localeCompare hids).mp hentry').2
    · exact fun hmem => ⟨entry, (mem_resolvedHeads localeCompare hids).mpr ⟨hentry, hmem⟩, rfl⟩
  have hbranch : ∀ id, id ∈ branch ↔ BelowHeads entries headEntryIds id := fun id =>
    (mem_branchAncestorsOf hids).trans (hheads id)
  have hcovered : ∀ id, id ∈ covered ↔ CoveredBy entries best id := by
    intro id
    rcases hbest : best with _ | s
    · simp [covered, hbest, CoveredBy]
    · have hsome : covered = collectSnapshotCoveredIds s (replayMap entries) branch := by
        simp only [covered, hbest, Option.elim_some]
      rw [hsome, mem_collectSnapshotCoveredIds hids (chooseBestBranchSnapshot_spec hbest).2]
      rw [CoveredBy]
      refine ⟨fun h => ⟨s, rfl, h⟩, ?_⟩
      rintro ⟨_, hs, h⟩
      exact Option.some.inj hs ▸ h
  have hbelow : ∀ id, CoveredBy entries best id → BelowHeads entries headEntryIds id := by
    rintro id ⟨s, hs, root, hroot, -, hreach⟩
    have hroots := ((isEligible_iff hids).mp (chooseBestBranchSnapshot_spec hs).2).2
    obtain ⟨head, hhead, hthere, habove⟩ := (hheads root).mp (hroots root hroot)
    exact ⟨head, hhead, hthere, habove.trans hreach⟩
  have huncovered : ∀ id, id ∈ uncovered
      ↔ BelowHeads entries headEntryIds id ∧ ¬CoveredBy entries best id := by
    intro id
    rw [mem_ofList, List.mem_filter, ← mem_def, hbranch, decide_eq_true_eq, hcovered]
  have hacyclic' : ReadyOrder.Acyclic fun x y => Needs (replayMap entries) x y ∧ y ∈ uncovered :=
    hacyclic.mono fun x y h => dependsOn_of_needs hids h.1 ((huncovered y).mp h.2).1.isReplayId
  obtain ⟨hgreedy, happly⟩ := topologicalByDependencies_of_acyclic hacyclic'
  have hunion : Reconstructs entries best (topologicalByDependencies uncovered (replayMap entries))
      = {id | BelowHeads entries headEntryIds id} := by
    refine Set.ext fun id => ?_
    rw [Reconstructs, Set.mem_ofPred_eq, happly, huncovered, Set.mem_ofPred_eq]
    constructor
    · rintro (⟨hid, -⟩ | hcov)
      · exact hid
      · exact hbelow id hcov
    · intro hid
      by_cases hcov : CoveredBy entries best id
      · exact Or.inr hcov
      · exact Or.inl ⟨hid, hcov⟩
  refine ⟨?_, fun plan hsome => ?_⟩
  · have hnone : computeHeadsMaterializationPlan localeCompare docId docs headEntryIds = none
        ↔ resolvedHeads = [] := by
      rw [computeHeadsMaterializationPlan, Option.map_eq_none_iff]
      exact List.getLast?_eq_none_iff
    rw [hnone, List.eq_nil_iff_forall_not_mem]
    simp only [resolvedHeads, mem_resolvedHeads localeCompare hids, isReplayId_iff_replayDocs]
    constructor
    · rintro h head hhead ⟨entry, hentry, rfl⟩
      exact h entry ⟨hentry, hhead⟩
    · exact fun h entry hboth => h entry.id hboth.2 ⟨entry, hboth.1, rfl⟩
  · obtain ⟨hsnapshot, hentryIds⟩ := hplan plan hsome
    refine ⟨best, ⟨hsnapshot, fun s hs => (chooseBestBranchSnapshot_spec hs).1⟩, ?_, ?_, ?_, ?_⟩
    · rw [hentryIds, hunion]
    · rw [hentryIds, hunion]
      rintro head - id ⟨other, hother, -, hreach⟩ hstrict
      refine ⟨other, hother, ?_, hreach⟩
      rintro rfl
      exact hacyclic other (TransGen.trans_right hreach hstrict)
    · rw [hentryIds]
      intro before id after hsplit dep hdep
      by_cases hcov : CoveredBy entries best dep
      · exact Or.inl hcov
      · have hid : id ∈ topologicalByDependencies uncovered (replayMap entries) :=
          hsplit ▸ List.mem_append_right _ List.mem_cons_self
        have hin : dep ∈ uncovered := (huncovered dep).mpr
          ⟨((huncovered id).mp ((happly id).mp hid)).1.of_dependsOn hdep, hcov⟩
        have hneeds : Needs (replayMap entries) id dep := ((dependsOn_iff hids).mp hdep).1
        exact Or.inr ((hgreedy.dependency_before hsplit hin hneeds).resolve_left (by simp))
    · intro hall includeDiagnostics chosen' hchosen'
      rw [hentryIds, hunion, reconstructs_documentPlan docId includeDiagnostics hids hacyclic hchosen']
      refine Set.ext fun id => ⟨BelowHeads.isReplayId, fun hreplay => ?_⟩
      obtain ⟨head, hhead, hreach⟩ := isLatest_of_acyclic hacyclic hreplay
      exact ⟨head, (hall head).mpr hhead, hhead.1, hreach⟩

/-- The diamond, as entries of a document. -/
def diamondDocs : List DocEntryMetadata :=
  diamondEntries.map fun entry => { entry with decryptionKeyId := "default", createdByPublicKey := "k" }

/-- The two sides of the diamond, without the merge. -/
theorem computeHeadsMaterializationPlan_spec_diamond :
    (computeHeadsMaterializationPlan compareByOrder "d" diamondDocs ["right", "gone", "left"]).map
        (fun plan => (plan.headEntryIds, plan.snapshotEntryId, plan.entryIdsToApply))
      = some ([("left" : JSString), "right"], some ("snap" : JSString), [("right" : JSString)])
    ∧ ∃ plan, computeHeadsMaterializationPlan compareByOrder "d" diamondDocs
        ["right", "gone", "left"] = some plan
      ∧ ∃ chosen, Reconstructs (planned diamondDocs) chosen plan.entryIdsToApply
        = {id | BelowHeads (planned diamondDocs) ["right", "gone", "left"] id} := by
  have hplan : (computeHeadsMaterializationPlan compareByOrder "d" diamondDocs
      ["right", "gone", "left"]).isSome = true := by decide +kernel
  obtain ⟨plan, hplan⟩ := Option.isSome_iff_exists.mp hplan
  obtain ⟨chosen, -, hreconstructs, -⟩ := (computeHeadsMaterializationPlan_spec compareByOrder "d"
    diamondDocs (by decide +kernel) acyclic_diamondEntries ["right", "gone", "left"]).2 plan hplan
  exact ⟨by decide +kernel, plan, hplan, chosen, hreconstructs⟩

end MindooDB
