import MindooDB.Lib.Comparator
import MindooDB.Materialization.Lifecycle
import MindooDB.Planner.Plan

/-!
# Materialization/Agreement — what the order of the metadata does not change

Whether a document is deleted, and which of its entries are grounded, are questions about its
dependency graph.  `mem_pruneToGroundedEntries` and `mem_survivingTerminalIds` answer them there, so
two replicas that hold the same entries in different orders answer alike
(`pruneToGroundedEntries_perm`, `computeIsDeletedFromMetadata_perm`).
-/

namespace MindooDB

open List Relation Walk

variable (entries : List StoreEntryMetadata)

/-- A replay entry names an id as a dependency, whether it is there or not. -/
def Names (id dep : JSString) : Prop :=
  ∃ e ∈ entries, isReplayEntry e = true ∧ e.id = id ∧ dep ∈ e.dependencyIds

/-- A snapshot vouches for what lies below its roots. -/
def VouchedFor (id : JSString) : Prop :=
  ∃ root, (∃ s ∈ entries, s.entryType = .docSnapshot ∧ root ∈ snapshotRoots s) ∧
    ReflTransGen (Names entries) root id

/-- An entry that nothing vouches for lacks a dependency. -/
def LacksDependency (id : JSString) : Prop :=
  ¬VouchedFor entries id ∧ ∃ dep, Names entries id dep ∧ ¬IsReplayId entries dep ∧ ¬VouchedFor entries dep

/-- An entry rests on one that lacks a dependency. -/
def Ungrounded (id : JSString) : Prop :=
  ∃ seed, LacksDependency entries seed ∧
    ReflTransGen (fun below above => Names entries above below ∧ ¬VouchedFor entries above) seed id

/-- A lifecycle entry has this id. -/
def IsTerminal (id : JSString) : Prop :=
  ∃ e ∈ entries, e.id = id ∧ (e.entryType = .docDelete ∨ e.entryType = .docUndelete)

/-- A lifecycle entry below the heads that no other of them depends on. -/
def Survives (id : JSString) : Prop :=
  (IsTerminal entries id ∧ IsLatest entries id) ∧
    ∀ other, IsTerminal entries other → IsLatest entries other → other ≠ id →
      ¬ReflTransGen (DependsOn entries) other id

variable {entries}

theorem Names.isReplayId {id dep : JSString} (h : Names entries id dep) : IsReplayId entries id := by
  obtain ⟨e, he, hr, hid, -⟩ := h
  exact ⟨e, he, hr, hid⟩

theorem IsTerminal.isReplayId {id : JSString} (h : IsTerminal entries id) : IsReplayId entries id := by
  obtain ⟨e, he, hid, htype⟩ := h
  refine ⟨e, he, ?_, hid⟩
  rcases htype with htype | htype <;> simp [isReplayEntry, docReplayTypes, htype]

/-! ## The order does not matter -/

section Congr

variable {entries' : List StoreEntryMetadata} (hmem : ∀ e, e ∈ entries' ↔ e ∈ entries)

include hmem

theorem names_congr : Names entries' = Names entries := by
  funext id dep
  simp only [Names, hmem]

theorem vouchedFor_congr : VouchedFor entries' = VouchedFor entries := by
  funext id
  simp only [VouchedFor, hmem, names_congr hmem]

theorem ungrounded_congr : Ungrounded entries' = Ungrounded entries := by
  funext id
  simp only [Ungrounded, LacksDependency, vouchedFor_congr hmem, names_congr hmem,
    isReplayId_congr hmem]

theorem survives_congr : Survives entries' = Survives entries := by
  funext id
  simp only [Survives, IsTerminal, hmem, isLatest_congr hmem, dependsOn_congr hmem]

end Congr

/-! ## The walks -/

section Walks

variable (hids : (entries.map fun e => e.id).Nodup)

include hids

theorem names_iff {id dep : JSString} :
    dep ∈ dependenciesOf (replayMap entries) id ↔ Names entries id dep := mem_dependenciesOf hids

theorem mem_keys_of_dependenciesOf_ne_nil {id : JSString}
    (h : dependenciesOf (replayMap entries) id ≠ []) : id ∈ (replayMap entries).keys := by
  obtain ⟨dep, hdep⟩ := exists_mem_of_ne_nil _ h
  exact LinkedMap.mem_keys_iff_has.mpr
    ((has_replayMap hids).mpr ((names_iff hids).mp hdep).isReplayId)

theorem mem_collectReplayAncestors {start id : JSString} :
    id ∈ collectReplayAncestors (replayMap entries) start
      ↔ IsReplayId entries start ∧ ReflTransGen (DependsOn entries) start id := by
  obtain ⟨ancestors, hwalk, hancestors⟩ := walk_spec (replayMap entries).has
    (fun v _ => mem_keys_of_dependenciesOf_ne_nil hids)
    (le_refl (walkFuel (replayMap entries) [start]))
  have hedge : Edge (replayMap entries).has (dependenciesOf (replayMap entries))
      = DependsOn entries := by
    funext a b
    exact propext (dependsOn_iff hids).symm
  simp only [collectReplayAncestors, hwalk, Option.getD_some, hancestors, Reachable,
    mem_singleton, exists_eq_left, has_replayMap hids, hedge]

/-- **What the snapshots vouch for.** -/
theorem mem_vouchedIds {id : JSString} :
    id ∈ vouchedIds entries (replayMap entries) ↔ VouchedFor entries id := by
  have hloop : ∀ (slice : List StoreEntryMetadata) (done : List JSString) (seen : LinkedSet JSString),
      (∀ v, v ∈ seen ↔ Reachable (fun _ => true) (dependenciesOf (replayMap entries)) done v) →
      ∃ done', (∀ r, r ∈ done' ↔
          r ∈ done ∨ ∃ s ∈ slice, s.entryType = .docSnapshot ∧ r ∈ snapshotRoots s) ∧
        ∀ v, v ∈ slice.foldl (fun vouched entry =>
            if entry.entryType = .docSnapshot then
              (walk (fun _ => true) (dependenciesOf (replayMap entries))
                (walkFuel (replayMap entries) (snapshotRoots entry)) (snapshotRoots entry).reverse
                vouched).getD vouched
            else vouched) seen
          ↔ Reachable (fun _ => true) (dependenciesOf (replayMap entries)) done' v := by
    intro slice
    induction slice with
    | nil => exact fun done seen hseen => ⟨done, by simp, hseen⟩
    | cons s slice ih =>
      intro done seen hseen
      rw [foldl_cons]
      by_cases hs : s.entryType = .docSnapshot
      · obtain ⟨seen', hwalk, hseen'⟩ := walk_more
          (fun v _ => mem_keys_of_dependenciesOf_ne_nil hids)
          (show (snapshotRoots s).reverse.length + _ ≤ walkFuel (replayMap entries) (snapshotRoots s)
            by rw [length_reverse, walkFuel]) hseen
        obtain ⟨done', hdone', hfold⟩ := ih _ seen' hseen'
        rw [if_pos hs, hwalk, Option.getD_some]
        refine ⟨done', fun r => ?_, hfold⟩
        rw [hdone']
        simp only [mem_append, mem_reverse, mem_cons, exists_eq_or_imp, hs, true_and, or_assoc]
      · obtain ⟨done', hdone', hfold⟩ := ih done seen hseen
        rw [if_neg hs]
        refine ⟨done', fun r => ?_, hfold⟩
        rw [hdone']
        simp only [mem_cons, exists_eq_or_imp, hs, false_and, false_or]
  have hnone : ∀ v, v ∈ (∅ : LinkedSet JSString) ↔
      Reachable (fun _ => true) (dependenciesOf (replayMap entries)) [] v := by
    simp [Reachable]
  have hedge : Edge (fun _ => true) (dependenciesOf (replayMap entries)) = Names entries := by
    funext a b
    simp only [Edge, and_true, names_iff hids]
  obtain ⟨roots, hroots, hfold⟩ := hloop entries [] ∅ hnone
  rw [vouchedIds, hfold]
  simp only [Reachable, hroots, not_mem_nil, false_or, true_and, hedge, VouchedFor]

omit hids in
theorem mem_childIds {id child : JSString} :
    child ∈ childIds (entries.filter isReplayEntry) id ↔ Names entries child id := by
  simp only [childIds, mem_map, mem_filter, decide_eq_true_eq, Names]
  constructor
  · rintro ⟨e, ⟨⟨he, hr⟩, hdep⟩, rfl⟩
    exact ⟨e, he, hr, rfl, hdep⟩
  · rintro ⟨e, he, hr, rfl, hdep⟩
    exact ⟨e, ⟨⟨he, hr⟩, hdep⟩, rfl⟩

/-- The entries that the pruning starts from. -/
theorem mem_seeds {id : JSString} :
    id ∈ ((entries.filter isReplayEntry).filter fun e =>
        hasMissingDependency (replayMap entries) (vouchedIds entries (replayMap entries)) e &&
          e.id ∉ vouchedIds entries (replayMap entries)).map (·.id)
      ↔ LacksDependency entries id := by
  have habsent : ∀ dep, (replayMap entries).has dep = false ↔ ¬IsReplayId entries dep := fun dep => by
    rw [← has_replayMap hids, Bool.not_eq_true]
  simp only [mem_map, mem_filter, Bool.and_eq_true, hasMissingDependency, any_eq_true,
    Bool.not_eq_true', decide_eq_true_eq, mem_vouchedIds hids, habsent, LacksDependency, Names]
  constructor
  · rintro ⟨e, ⟨⟨he, hr⟩, ⟨dep, hdep, hmissing⟩, hvouched⟩, rfl⟩
    exact ⟨hvouched, dep, ⟨e, he, hr, rfl, hdep⟩, hmissing⟩
  · rintro ⟨hvouched, dep, ⟨e, he, hr, rfl, hdep⟩, hmissing⟩
    exact ⟨e, ⟨⟨he, hr⟩, ⟨dep, hdep, hmissing⟩, hvouched⟩, rfl⟩

/-- **The pruning drops the entries that rest on what is missing.** -/
theorem exists_ungrounded : ∃ ungrounded : LinkedSet JSString,
    pruneToGroundedEntries entries = entries.filter (fun e => e.id ∉ ungrounded) ∧
      ∀ id, id ∈ ungrounded ↔ Ungrounded entries id := by
  let vouched := vouchedIds entries (replayMap entries)
  let seeds := ((entries.filter isReplayEntry).filter fun e =>
    hasMissingDependency (replayMap entries) vouched e && e.id ∉ vouched).map (·.id)
  have hvertices : ∀ v, Reachable (fun id => decide (id ∉ vouched))
      (childIds (entries.filter isReplayEntry)) seeds.reverse v →
      childIds (entries.filter isReplayEntry) v ≠ [] → v ∈ (replayMap entries).keys := by
    rintro v ⟨seed, hseed, -, hreach⟩ -
    refine LinkedMap.mem_keys_iff_has.mpr ((has_replayMap hids).mpr ?_)
    rcases ReflTransGen.cases_tail hreach with rfl | ⟨u, -, huv⟩
    · obtain ⟨-, dep, hnames, -⟩ := (mem_seeds hids).mp (mem_reverse.mp hseed)
      exact hnames.isReplayId
    · exact (mem_childIds.mp huv.1).isReplayId
  have hfuel : seeds.reverse.length + ((replayMap entries).keys.map fun id =>
        (childIds (entries.filter isReplayEntry) id).length).sum
      ≤ seeds.length + ((replayMap entries).keys.map fun id =>
        (childIds (entries.filter isReplayEntry) id).length).sum := by
    rw [length_reverse]
  obtain ⟨ungrounded, hwalk, hungrounded⟩ := walk_spec _ hvertices hfuel
  refine ⟨ungrounded, ?_, fun id => ?_⟩
  · have hget : ungrounded = (walk (fun id => decide (id ∉ vouched))
        (childIds (entries.filter isReplayEntry)) (seeds.length +
          ((replayMap entries).keys.map fun id =>
            (childIds (entries.filter isReplayEntry) id).length).sum) seeds.reverse ∅).getD ∅ := by
      rw [hwalk, Option.getD_some]
    rw [hget]
    rfl
  · have hedge : Edge (fun id => decide (id ∉ vouched))
        (childIds (entries.filter isReplayEntry))
        = fun below above => Names entries above below ∧ ¬VouchedFor entries above := by
      funext below above
      simp only [Edge, mem_childIds, decide_eq_true_eq, vouched, mem_vouchedIds hids]
    rw [hungrounded, Reachable, hedge]
    refine exists_congr fun seed => ?_
    rw [mem_reverse, mem_seeds hids, ← and_assoc]
    refine and_congr_left fun _ => and_iff_left_of_imp fun hlacks => ?_
    simpa only [vouched, mem_vouchedIds hids, decide_eq_true_eq] using hlacks.1

theorem mem_pruneToGroundedEntries {e : StoreEntryMetadata} :
    e ∈ pruneToGroundedEntries entries ↔ e ∈ entries ∧ ¬Ungrounded entries e.id := by
  obtain ⟨ungrounded, heq, hmem⟩ := exists_ungrounded hids
  rw [heq, mem_filter, decide_eq_true_eq, hmem]

variable {entries' : List StoreEntryMetadata}

/-- **Grounding does not see the order of a slice.** -/
theorem pruneToGroundedEntries_perm (hperm : entries'.Perm entries) :
    (pruneToGroundedEntries entries').Perm (pruneToGroundedEntries entries) := by
  obtain ⟨ungrounded, heq, hmem⟩ := exists_ungrounded hids
  obtain ⟨ungrounded', heq', hmem'⟩ := exists_ungrounded ((hperm.map _).nodup_iff.mpr hids)
  rw [heq, heq']
  have hsame : ∀ id, id ∈ ungrounded' ↔ id ∈ ungrounded := fun id => by
    rw [hmem, hmem', ungrounded_congr fun e => hperm.mem_iff]
  simp only [hsame]
  exact hperm.filter _

/-! ## Deletion -/

theorem isLifecycleTerminal_iff {id : JSString} :
    isLifecycleTerminal (replayMap entries) id = true ↔ IsTerminal entries id := by
  rw [isLifecycleTerminal, Option.any_eq_true]
  simp only [get?_replayMap hids, Bool.or_eq_true, decide_eq_true_eq, IsTerminal]
  constructor
  · rintro ⟨e, ⟨he, -, hid⟩, htype⟩
    exact ⟨e, he, hid, htype⟩
  · rintro ⟨e, he, hid, htype⟩
    refine ⟨e, ⟨he, ?_, hid⟩, htype⟩
    rcases htype with htype | htype <;> simp [isReplayEntry, docReplayTypes, htype]

section Order

variable (localeCompare : JSString → JSString → ℤ)

theorem mem_findActiveReplayHeadEntryIds {id : JSString} :
    id ∈ findActiveReplayHeadEntryIds localeCompare (entries.filter isReplayEntry)
      ↔ IsHead entries id := by
  rw [findActiveReplayHeadEntryIds, mem_map]
  simp only [mem_sortBy, mem_filter, decide_eq_true_eq, mem_referencedIds hids, not_exists,
    IsHead, IsReplayId]
  constructor
  · rintro ⟨e, ⟨⟨he, hr⟩, hun⟩, rfl⟩
    exact ⟨⟨e, he, hr, rfl⟩, hun⟩
  · rintro ⟨⟨e, he, hr, rfl⟩, hun⟩
    exact ⟨e, ⟨⟨he, hr⟩, hun⟩, rfl⟩

/-- The lifecycle entries below the heads, as `isDeletedFromHeads` collects them. -/
abbrev terminalIds (localeCompare : JSString → JSString → ℤ) (entries : List StoreEntryMetadata) :
    List JSString :=
  (reachableTerminalIds (findActiveReplayHeadEntryIds localeCompare (entries.filter isReplayEntry))
    (replayMap entries)).toList

theorem mem_terminalIds {id : JSString} :
    id ∈ terminalIds localeCompare entries ↔ IsTerminal entries id ∧ IsLatest entries id := by
  rw [terminalIds, ← LinkedSet.mem_def, reachableTerminalIds, LinkedSet.mem_foldl_addAll]
  simp only [LinkedSet.notMem_empty, false_or, mem_filter, ← LinkedSet.mem_def,
    mem_collectReplayAncestors hids, isLifecycleTerminal_iff hids,
    mem_findActiveReplayHeadEntryIds hids, IsLatest]
  constructor
  · rintro ⟨head, hhead, ⟨-, hreach⟩, hterminal⟩
    exact ⟨hterminal, head, hhead, hreach⟩
  · rintro ⟨hterminal, head, hhead, hreach⟩
    exact ⟨head, hhead, ⟨hhead.1, hreach⟩, hterminal⟩

theorem mem_survivingTerminalIds {id : JSString} :
    id ∈ survivingTerminalIds (replayMap entries) (terminalIds localeCompare entries)
      ↔ Survives entries id := by
  rw [survivingTerminalIds, mem_filter, mem_terminalIds hids]
  refine and_congr_right fun _ => ?_
  rw [Bool.not_eq_true', any_eq_false]
  simp only [mem_terminalIds hids, Bool.and_eq_true, decide_eq_true_eq,
    mem_collectReplayAncestors hids, not_and]
  refine forall_congr' fun other => ⟨fun h hterminal hlatest hne => ?_, fun h hother hne hid => ?_⟩
  · exact h ⟨hterminal, hlatest⟩ hne hterminal.isReplayId
  · exact h hother.1 hother.2 hne

omit hids in
theorem nodup_survivingTerminalIds :
    (survivingTerminalIds (replayMap entries) (terminalIds localeCompare entries)).Nodup :=
  (LinkedSet.nodup _).filter _

/-- The survivors that the verdict is taken from. -/
abbrev survivors (localeCompare : JSString → JSString → ℤ) (entries : List StoreEntryMetadata) :
    List StoreEntryMetadata :=
  (survivingTerminalIds (replayMap entries) (terminalIds localeCompare entries)).filterMap
    (replayMap entries).get?

theorem survivors_perm (hperm : entries'.Perm entries) :
    (survivors localeCompare entries').Perm (survivors localeCompare entries) := by
  have hids' : (entries'.map fun e => e.id).Nodup := (hperm.map _).nodup_iff.mpr hids
  have hget : (replayMap entries').get? = (replayMap entries).get? := by
    funext id
    refine Option.ext fun e => ?_
    rw [get?_replayMap hids, get?_replayMap hids', hperm.mem_iff]
  have hsurviving : (survivingTerminalIds (replayMap entries') (terminalIds localeCompare entries')).Perm
      (survivingTerminalIds (replayMap entries) (terminalIds localeCompare entries)) := by
    refine (perm_ext_iff_of_nodup (nodup_survivingTerminalIds localeCompare)
      (nodup_survivingTerminalIds localeCompare)).mpr fun id => ?_
    rw [mem_survivingTerminalIds hids, mem_survivingTerminalIds hids',
      survives_congr fun e => hperm.mem_iff]
  rw [survivors, survivors, hget]
  exact hsurviving.filterMap _

omit hids in
/-- Two entries are tied when they have one time and one id. -/
theorem orders_compareByCreatedAtThenId {localeCompare : JSString → JSString → ℤ}
    (horders : Orders localeCompare) : Orders (compareByCreatedAtThenId localeCompare) := by
  have htimes : Orders fun l r : StoreEntryMetadata => l.createdAt - r.createdAt :=
    ⟨fun l r => by omega, fun l r u hlr hru => by omega⟩
  have hlex := htimes.lex (horders.comap StoreEntryMetadata.id)
  refine (funext₂ fun l r => ?_ : compareByCreatedAtThenId localeCompare = _) ▸ hlex
  simp only [compareByCreatedAtThenId, ne_eq, sub_eq_zero]

/-- **Whether a document is deleted does not depend on the order of its entries.** -/
theorem computeIsDeletedFromMetadata_perm {localeCompare : JSString → JSString → ℤ}
    (horders : Orders localeCompare) (hseparates : Separates localeCompare (entries.map (·.id)))
    (hperm : entries'.Perm entries) :
    computeIsDeletedFromMetadata localeCompare entries'
      = computeIsDeletedFromMetadata localeCompare entries := by
  have hsort : sortBy (compareByCreatedAtThenId localeCompare) (survivors localeCompare entries')
      = sortBy (compareByCreatedAtThenId localeCompare) (survivors localeCompare entries) := by
    have hcmp := orders_compareByCreatedAtThenId horders
    refine sortBy_eq_of_perm (hcmp.consistent _) ?_ (survivors_perm hids localeCompare hperm)
    have hget : ∀ e ∈ survivors localeCompare entries, e ∈ entries := fun e he => by
      obtain ⟨id, -, hget⟩ := mem_filterMap.mp he
      exact ((get?_replayMap hids).mp hget).1
    intro e he e' he' hle hge
    have hzero := hcmp.eq_zero hle hge
    have hid : localeCompare e.id e'.id = 0 := by
      rw [compareByCreatedAtThenId] at hzero
      split at hzero
      · omega
      · exact hzero
    have hsame := hseparates _ (mem_map_of_mem (hget e he)) _ (mem_map_of_mem (hget e' he'))
      hid.le (horders.swap_le _ _ |>.mpr hid.ge)
    exact inj_on_of_nodup_map hids (hget e he) (hget e' he') hsame
  have hverdict : ∀ metadata, computeIsDeletedFromMetadata localeCompare metadata
      = (sortBy (compareByCreatedAtThenId localeCompare)
          (survivors localeCompare metadata)).getLast?.any fun e => e.entryType = .docDelete :=
    fun _ => rfl
  rw [hverdict, hverdict, hsort]

end Order

end Walks

end MindooDB
