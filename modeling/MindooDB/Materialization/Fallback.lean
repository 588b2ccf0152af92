import MindooDB.Materialization.Load
import MindooDB.Planner.Plan

/-!
# Materialization/Fallback — when the snapshot cannot be used

A plan leaves out the entries that its snapshot covers.  None of the four ways makes another plan
when the snapshot turns out unusable, so what it covers is lost (`snapshotFallback_iff`).
-/

namespace MindooDB

open List Option

variable {snapshotEntryId : Option JSString}

namespace MaterializationRuntime

variable {am : Automerge} (rt : MaterializationRuntime am)

/-! ## What the entries hold -/

/-- Every check that one of the four ways makes of an entry. -/
def accepts (entry : DocStoreEntry) : Bool :=
  !rt.shouldSkipLoadedEntryForBuiltin entry && rt.verifyEntrySignature entry
    && rt.isTrustedKey entry.createdByPublicKey && rt.verifyEntrySignatureWithKey entry

/-- The change of an entry that is present and validly signed. -/
def changeOf (id : JSString) : Option AutomergeChange :=
  ((rt.getEntry id).filter rt.accepts).bind fun entry =>
    (rt.decryptPayload entry).bind am.decodeChange

/-- The changes of some entries. -/
def changesOf (ids : List JSString) : Set AutomergeChange :=
  {change | ∃ id ∈ ids, rt.changeOf id = some change}

/-- All entries are present and validly signed. -/
def Present (ids : List JSString) : Prop :=
  ∀ id ∈ ids, (rt.changeOf id).isSome

/-- The snapshot of a plan cannot be used: its payload is missing, its signature does not hold, or
its heads are others than declared. -/
def Unusable (byId : LinkedMap JSString DocEntryMetadata) (snapshotEntryId : Option JSString) :
    Prop :=
  ∃ snapshotMeta, snapshotEntryId.bind byId.get? = some snapshotMeta
    ∧ rt.loadSnapshotForFold snapshotMeta = some none

/-- **A document has every entry of a slice.** -/
def ContainsAll (doc : am.Doc) (ids : List JSString) : Prop :=
  ∀ id ∈ ids, ∀ change, rt.changeOf id = some change → am.Contains doc change

/-! ## The condition -/

/-- A slice has all that its entries depend on. -/
def Whole (ids : List JSString) : Prop :=
  ∀ id ∈ ids, ∀ change, rt.changeOf id = some change → Grounded (rt.changesOf ids) change

/-- The change of every entry is that of one that is applied. -/
def Applies (ids : List JSString) (applied : Set JSString) : Prop :=
  ∀ id ∈ ids, ∀ change, rt.changeOf id = some change →
    ∃ other ∈ applied, rt.changeOf other = some change

variable {rt} {doc : am.Doc} {ids applied : List JSString}
  {byId : LinkedMap JSString DocEntryMetadata}

theorem Applies.mono {applied applied' : Set JSString} (h : rt.Applies ids applied)
    (hsub : applied ⊆ applied') : rt.Applies ids applied' := by
  intro id hid change hchange
  obtain ⟨other, hother, hsame⟩ := h id hid change hchange
  exact ⟨other, hsub hother, hsame⟩

/-- **What is applied, and nothing else**, decides what the document has. -/
theorem containsAll_iff (hsub : ∀ id ∈ applied, id ∈ ids)
    (hreceived : am.received doc = rt.changesOf applied) :
    rt.ContainsAll doc ids ↔ rt.Whole ids ∧ rt.Applies ids {id | id ∈ applied} := by
  constructor
  · refine fun h => ⟨fun id hid change hchange => ?_, fun id hid change hchange => ?_⟩
    · have hcontains := h id hid change hchange
      rw [Automerge.Contains, hreceived] at hcontains
      exact hcontains.mono fun c ⟨other, hother, hc⟩ => ⟨other, hsub other hother, hc⟩
    · have hcontains := h id hid change hchange
      rw [Automerge.Contains, hreceived] at hcontains
      exact hcontains.mem
  · rintro ⟨hwhole, happlies⟩ id hid change hchange
    rw [Automerge.Contains, hreceived]
    exact (hwhole id hid change hchange).mono fun c ⟨other, hother, hc⟩ =>
      happlies other hother c hc

/-! ## What the three loops apply -/

theorem changeOf_eq_some_iff {id : JSString} {change : AutomergeChange} :
    rt.changeOf id = some change ↔ ∃ entry bytes, rt.getEntry id = some entry
      ∧ rt.accepts entry = true ∧ rt.decryptPayload entry = some bytes
      ∧ am.decodeChange bytes = some change := by
  simp only [changeOf, bind_eq_some_iff, filter_eq_some_iff]
  constructor
  · rintro ⟨entry, ⟨hget, haccepts⟩, bytes, hbytes, hchange⟩
    exact ⟨entry, bytes, hget, haccepts, hbytes, hchange⟩
  · rintro ⟨entry, bytes, hget, haccepts, hbytes, hchange⟩
    exact ⟨entry, ⟨hget, haccepts⟩, bytes, hbytes, hchange⟩

theorem accepts_eq_true_iff {entry : DocStoreEntry} : rt.accepts entry = true ↔
    rt.shouldSkipLoadedEntryForBuiltin entry = false ∧ rt.verifyEntrySignature entry = true
      ∧ rt.isTrustedKey entry.createdByPublicKey = true
      ∧ rt.verifyEntrySignatureWithKey entry = true := by
  simp [accepts, and_assoc]

theorem Present.exists_payloads (h : rt.Present ids) :
    (∀ entry ∈ rt.getEntries ids, rt.accepts entry = true) ∧
      ∃ payloads, (rt.getEntries ids).mapM rt.decryptPayload = some payloads
        ∧ (∀ bytes ∈ payloads, (am.decodeChange bytes).isSome)
        ∧ {c | ∃ bytes ∈ payloads, am.decodeChange bytes = some c} = rt.changesOf ids := by
  induction ids with
  | nil =>
    refine ⟨by simp [getEntries], [], rfl, by simp, ?_⟩
    ext c
    simp [changesOf]
  | cons id ids ih =>
    obtain ⟨haccepts, payloads, hpayloads, hdecode, hchanges⟩ := ih fun other hother =>
      h other (mem_cons_of_mem _ hother)
    obtain ⟨change, hchange⟩ := isSome_iff_exists.mp (h id mem_cons_self)
    obtain ⟨entry, bytes, hget, haccept, hbytes, hdecoded⟩ := changeOf_eq_some_iff.mp hchange
    have hentries : rt.getEntries (id :: ids) = entry :: rt.getEntries ids := by
      rw [getEntries, filterMap_cons_some hget]
      rfl
    refine ⟨?_, bytes :: payloads, ?_, ?_, ?_⟩
    · rw [hentries]
      exact forall_mem_cons.mpr ⟨haccept, haccepts⟩
    · rw [hentries, mapM_cons, hbytes, hpayloads]
      rfl
    · refine forall_mem_cons.mpr ⟨?_, hdecode⟩
      rw [hdecoded]
      rfl
    · ext c
      have hrest : (∃ bytes ∈ payloads, am.decodeChange bytes = some c) ↔
          ∃ other ∈ ids, rt.changeOf other = some c := Set.ext_iff.mp hchanges c
      change (∃ b ∈ bytes :: payloads, am.decodeChange b = some c)
        ↔ ∃ other ∈ id :: ids, rt.changeOf other = some c
      rw [exists_mem_cons_iff, exists_mem_cons_iff, hrest, hdecoded, hchange]

section Received

variable {metas : List DocEntryMetadata}

/-- All at once, after the keys have been imported. -/
theorem Present.applyVerified (h : rt.Present ids) (doc : am.Doc) :
    ∃ doc', rt.applyVerified doc (rt.getEntries ids) = some doc'
      ∧ am.received doc' = am.received doc ∪ rt.changesOf ids := by
  obtain ⟨haccepts, payloads, hpayloads, hdecode, hchanges⟩ := h.exists_payloads
  have hvalid : (rt.getEntries ids).filter (fun e => !rt.shouldSkipLoadedEntryForBuiltin e)
      = rt.getEntries ids := by
    refine filter_eq_self.mpr fun entry hentry => ?_
    simp [(accepts_eq_true_iff.mp (haccepts entry hentry)).1]
  have hverified : (rt.getEntries ids).filter (fun e =>
      rt.isTrustedKey e.createdByPublicKey && rt.verifyEntrySignatureWithKey e)
        = rt.getEntries ids := by
    refine filter_eq_self.mpr fun entry hentry => ?_
    obtain ⟨-, -, htrusted, hsigned⟩ := accepts_eq_true_iff.mp (haccepts entry hentry)
    simp [htrusted, hsigned]
  rw [MaterializationRuntime.applyVerified, hvalid]
  simp only [hverified, hpayloads]
  rw [← hchanges]
  cases payloads with
  | nil => exact ⟨doc, rfl, by simp⟩
  | cons bytes payloads => exact am.applyChanges_spec doc _ hdecode

/-- The entries of a fold. -/
theorem Present.applyChangeEntries (h : rt.Present (metas.map (·.id))) (doc : am.Doc) :
    ∃ doc', rt.applyChangeEntries doc metas = some doc'
      ∧ am.received doc' = am.received doc ∪ rt.changesOf (metas.map (·.id)) := by
  obtain ⟨haccepts, payloads, hpayloads, hdecode, hchanges⟩ := h.exists_payloads
  have hverified : (rt.getEntries (metas.map (·.id))).filter rt.verifyEntrySignature
      = rt.getEntries (metas.map (·.id)) :=
    filter_eq_self.mpr fun entry hentry =>
      (accepts_eq_true_iff.mp (haccepts entry hentry)).2.1
  rw [MaterializationRuntime.applyChangeEntries]
  simp only [hverified, hpayloads]
  rw [← hchanges]
  cases payloads with
  | nil => exact ⟨doc, rfl, by simp⟩
  | cons bytes payloads => exact am.applyChanges_spec doc _ hdecode

theorem applyOne_of_isSome {entryMeta : DocEntryMetadata}
    (h : (rt.changeOf entryMeta.id).isSome) (doc : am.Doc) :
    ∃ doc', rt.applyOne doc entryMeta = some doc'
      ∧ am.received doc' = am.received doc ∪ rt.changesOf [entryMeta.id] := by
  obtain ⟨change, hchange⟩ := isSome_iff_exists.mp h
  obtain ⟨entry, bytes, hget, haccepts, hbytes, hdecoded⟩ := changeOf_eq_some_iff.mp hchange
  obtain ⟨hskip, hsigned, -, -⟩ := accepts_eq_true_iff.mp haccepts
  have hone : rt.changesOf [entryMeta.id] = {c | am.decodeChange bytes = some c} := by
    ext c
    simp [changesOf, hchange, hdecoded]
  rw [applyOne, hget, hone]
  simp only [hskip, hsigned, hbytes]
  exact am.loadIncremental_spec doc bytes (by simp [hdecoded])

/-- One by one. -/
theorem Present.foldlM_applyOne (h : rt.Present (metas.map (·.id))) (doc : am.Doc) :
    ∃ doc', metas.foldlM rt.applyOne doc = some doc'
      ∧ am.received doc' = am.received doc ∪ rt.changesOf (metas.map (·.id)) := by
  induction metas generalizing doc with
  | nil => exact ⟨doc, rfl, by simp [changesOf]⟩
  | cons entryMeta metas ih =>
    obtain ⟨hfirst, hrest⟩ := forall_mem_cons.mp h
    obtain ⟨doc', hdoc', hreceived'⟩ := applyOne_of_isSome hfirst doc
    obtain ⟨doc'', hdoc'', hreceived''⟩ := ih hrest doc'
    refine ⟨doc'', ?_, ?_⟩
    · rw [foldlM_cons, hdoc']
      exact hdoc''
    · rw [hreceived'', hreceived', Set.union_assoc]
      congr 1
      ext c
      simp [changesOf]

end Received

theorem startDoc_of_unusable
    (h : rt.Unusable byId snapshotEntryId) : rt.startDoc byId snapshotEntryId = some am.init := by
  obtain ⟨snapshotMeta, hget, hload⟩ := h
  rw [startDoc, hget]
  simp only [hload]
  rfl

end MaterializationRuntime

/-! ## What a plan leaves to be applied -/

/-- The ids of the replay entries. -/
def replayIds (metas : List DocEntryMetadata) : List JSString :=
  (metas.filter fun em => isReplayEntry em.toStoreEntryMetadata).map (·.id)

/-- The entries of the latest state that the chosen snapshot does not cover. -/
def leftToApply (entries : List StoreEntryMetadata) : Set JSString :=
  {id | IsLatest entries id ∧ ¬ CoveredBy entries (chosenSnapshot entries) id}

variable {metas : List DocEntryMetadata} {ids : List JSString}

theorem mem_replayIds {id : JSString} : id ∈ replayIds metas ↔ IsReplayId (planned metas) id := by
  simp [replayIds, IsReplayId, planned, and_assoc]

section Plan

variable (hids : (metas.map (·.id)).Nodup)

include hids

theorem nodup_planned : ((planned metas).map fun e => e.id).Nodup := by
  rw [planned, List.map_map]
  exact hids

theorem get?_metadataById {id : JSString} {em : DocEntryMetadata} :
    (metadataById metas).get? id = some em ↔ em ∈ metas ∧ em.id = id := by
  have hkeys : ((metas.map fun e => (e.id, e)).map Prod.fst).Nodup := by
    rw [List.map_map]
    exact hids
  rw [metadataById, LinkedMap.get?_ofList hkeys]
  simp only [List.mem_map, Prod.mk.injEq]
  constructor
  · rintro ⟨em', hem', rfl, rfl⟩
    exact ⟨hem', rfl⟩
  · rintro ⟨hem, rfl⟩
    exact ⟨em, hem, rfl, rfl⟩

/-- A plan lists entries that the metadata has. -/
theorem map_id_entriesToApply (hsub : ∀ id ∈ ids, id ∈ metas.map (·.id)) :
    (entriesToApply (metadataById metas) ids).map (·.id) = ids := by
  induction ids with
  | nil => rfl
  | cons id ids ih =>
    obtain ⟨hid, hrest⟩ := forall_mem_cons.mp hsub
    obtain ⟨em, hem, rfl⟩ := List.mem_map.mp hid
    have hget := (get?_metadataById hids).mpr ⟨hem, rfl⟩
    rw [entriesToApply, filterMap_cons_some hget, map_cons]
    exact congrArg _ (ih hrest)

theorem mem_entryIdsToApply (docId : JSString) (includeDiagnostics : Bool) {id : JSString} :
    id ∈ (computeDocumentMaterializationPlan docId (planned metas)
        includeDiagnostics).entryIdsToApply
      ↔ id ∈ leftToApply (planned metas) := by
  rw [entryIdsToApply_eq (nodup_planned hids), mem_topologicalByDependencies,
    mem_uncoveredIds (nodup_planned hids)]
  rfl

end Plan

theorem mem_replayIds_of_leftToApply {id : JSString} (h : id ∈ leftToApply (planned metas)) :
    id ∈ replayIds metas :=
  mem_replayIds.mpr h.1.isReplayId

theorem replayIds_subset {id : JSString} (h : id ∈ replayIds metas) : id ∈ metas.map (·.id) := by
  obtain ⟨em, hem, rfl⟩ := List.mem_map.mp h
  exact List.mem_map_of_mem (mem_filter.mp hem).1

/-! ## The four ways -/

namespace MaterializationRuntime

variable {am : Automerge} (rt : MaterializationRuntime am)

/-- **When a slice survives the loss of its snapshot**: it has all that its entries depend on, and
the change of each entry is that of one that the snapshot does not cover. -/
def Recovers (metas : List DocEntryMetadata) : Prop :=
  rt.Whole (replayIds metas) ∧ rt.Applies (replayIds metas) (leftToApply (planned metas))

/-- The key of a document is sealed, and not there. -/
def lacksKey (metas : List DocEntryMetadata) : Bool :=
  (loadKeyId metas).any fun keyId => isSealedKeyId keyId && !rt.hasDecryptionKey metas keyId

variable {rt} {doc : am.Doc} {docId : JSString} {includeDiagnostics : Bool}

/-- The start of the fold of a slice, with the snapshots whose roots lie in the slice. -/
abbrev foldInput (entriesOfPrefix docAllMeta : List DocEntryMetadata) : List DocEntryMetadata :=
  entriesOfPrefix ++ docAllMeta.filter fun em =>
    em.entryType = .docSnapshot && snapshotRootsWithin em (entriesOfPrefix.map (·.id))

theorem Present.mono {ids ids' : List JSString} (h : rt.Present ids)
    (hsub : ∀ id ∈ ids', id ∈ ids) : rt.Present ids' :=
  fun id hid => h id (hsub id hid)

theorem Unusable.ne_nil (h : rt.Unusable (metadataById metas) snapshotEntryId) : metas ≠ [] := by
  rintro rfl
  obtain ⟨snapshotMeta, hget, -⟩ := h
  obtain ⟨id, -, hid⟩ := bind_eq_some_iff.mp hget
  cases (hid : none = some snapshotMeta)

section Plan

variable (hids : (metas.map (·.id)).Nodup) (hpresent : rt.Present (replayIds metas))

include hids

/-- The entries that a plan lists, in its order. -/
theorem map_id_planEntries :
    (entriesToApply (metadataById metas) (computeDocumentMaterializationPlan docId (planned metas)
      includeDiagnostics).entryIdsToApply).map (·.id)
      = (computeDocumentMaterializationPlan docId (planned metas)
        includeDiagnostics).entryIdsToApply :=
  map_id_entriesToApply hids fun _ hid =>
    replayIds_subset (mem_replayIds_of_leftToApply ((mem_entryIdsToApply hids _ _).mp hid))

/-- **A document that was given just what its plan lists.** -/
theorem containsAll_iff_recovers (hreceived : am.received doc = rt.changesOf
      (computeDocumentMaterializationPlan docId (planned metas)
        includeDiagnostics).entryIdsToApply) :
    rt.ContainsAll doc (replayIds metas) ↔ rt.Recovers metas := by
  rw [containsAll_iff (fun id hid =>
    mem_replayIds_of_leftToApply ((mem_entryIdsToApply hids _ _).mp hid)) hreceived, Recovers]
  have happlied : {id | id ∈ (computeDocumentMaterializationPlan docId (planned metas)
      includeDiagnostics).entryIdsToApply} = leftToApply (planned metas) :=
    Set.ext fun id => mem_entryIdsToApply hids _ _
  rw [happlied]

include hpresent

theorem present_planEntries (docId : JSString) (includeDiagnostics : Bool) :
    rt.Present ((entriesToApply (metadataById metas) (computeDocumentMaterializationPlan docId
      (planned metas) includeDiagnostics).entryIdsToApply).map (·.id)) := by
  rw [map_id_planEntries hids]
  exact hpresent.mono fun id hid =>
    mem_replayIds_of_leftToApply ((mem_entryIdsToApply hids _ _).mp hid)

/-- The document of the present. -/
theorem loadDocumentInternal_of_unusable (docId : JSString)
    (hunusable : rt.Unusable (metadataById metas)
      (computeDocumentMaterializationPlan docId (planned metas) true).snapshotEntryId)
    (hkey : rt.lacksKey metas = false) :
    ∃ loaded, rt.loadDocumentInternal docId metas = some (some loaded)
      ∧ (rt.ContainsAll loaded.doc (replayIds metas) ↔ rt.Recovers metas) := by
  obtain ⟨loadedDoc, happly, hreceived⟩ := (present_planEntries hids hpresent docId
    true).applyVerified am.init
  rw [am.received_init, Set.empty_union, map_id_planEntries hids] at hreceived
  obtain ⟨firstEntry, rest, rfl⟩ := exists_cons_of_ne_nil hunusable.ne_nil
  rw [lacksKey] at hkey
  rw [loadDocumentInternal]
  simp only [hkey, startDoc_of_unusable hunusable, bind_some, happly]
  exact ⟨_, rfl, containsAll_iff_recovers hids hreceived⟩

end Plan

/-! ### Those of a point in time -/

theorem nodup_relevantEntries (hids : (metas.map (·.id)).Nodup) (timestamp : ℤ) :
    ((relevantEntries metas timestamp).map (·.id)).Nodup := by
  refine List.Nodup.sublist (filter_sublist.map _) ?_
  exact ((perm_sortBy _ _).map _).nodup_iff.mpr (hids.sublist (filter_sublist.map _))

theorem getDocumentAtTimestamp_of_unusable (docId : JSString) (timestamp : ℤ)
    (hids : (metas.map (·.id)).Nodup)
    (hpresent : rt.Present (replayIds (relevantEntries metas timestamp)))
    (hunusable : rt.Unusable (metadataById (relevantEntries metas timestamp))
      (computeDocumentMaterializationPlan docId (planned (relevantEntries metas timestamp))
        false).snapshotEntryId) :
    ∃ loaded, rt.getDocumentAtTimestamp docId metas timestamp = some (some loaded)
      ∧ (rt.ContainsAll loaded.doc (replayIds (relevantEntries metas timestamp))
        ↔ rt.Recovers (relevantEntries metas timestamp)) := by
  have hrelevant := nodup_relevantEntries hids timestamp
  obtain ⟨loadedDoc, happly, hreceived⟩ := (present_planEntries hrelevant hpresent docId
    false).foldlM_applyOne am.init
  rw [am.received_init, Set.empty_union, map_id_planEntries hrelevant] at hreceived
  have hempty : (relevantEntries metas timestamp).isEmpty = false :=
    isEmpty_eq_false_iff.mpr hunusable.ne_nil
  rw [getDocumentAtTimestamp]
  simp only [hempty, startDoc_of_unusable hunusable, bind_some, happly]
  exact ⟨_, rfl, containsAll_iff_recovers hrelevant hreceived⟩

/-! ### Those of a given plan -/

/-- The plan comes from the callers, who list entries of the slice only. -/
theorem materializeDocumentFromPlan_of_unusable {allEntryMetadata : List DocEntryMetadata}
    (entryIdsToApply : List JSString) (fallbackTimestamp : ℤ)
    (hids : (allEntryMetadata.map (·.id)).Nodup) (hslice : ∀ em ∈ metas, em ∈ allEntryMetadata)
    (hplan : ∀ id ∈ entryIdsToApply, id ∈ replayIds metas) (hpresent : rt.Present (replayIds metas))
    (hunusable : rt.Unusable (metadataById allEntryMetadata) snapshotEntryId) :
    ∃ loaded, rt.materializeDocumentFromPlan allEntryMetadata metas snapshotEntryId entryIdsToApply
        fallbackTimestamp = some (some loaded)
      ∧ (rt.ContainsAll loaded.doc (replayIds metas) ↔ rt.Whole (replayIds metas)
        ∧ rt.Applies (replayIds metas) {id | id ∈ entryIdsToApply}) := by
  have happlied : (entriesToApply (metadataById allEntryMetadata) entryIdsToApply).map (·.id)
      = entryIdsToApply := by
    refine map_id_entriesToApply hids fun id hid => ?_
    obtain ⟨em, hem, rfl⟩ := List.mem_map.mp (replayIds_subset (hplan id hid))
    exact List.mem_map_of_mem (hslice em hem)
  have hpresent' := hpresent.mono hplan
  rw [← happlied] at hpresent'
  obtain ⟨loadedDoc, happly, hreceived⟩ := hpresent'.foldlM_applyOne am.init
  rw [am.received_init, Set.empty_union, happlied] at hreceived
  obtain ⟨snapshotMeta, hget, -⟩ := id hunusable
  obtain ⟨snapshotId, rfl, -⟩ := bind_eq_some_iff.mp hget
  rw [materializeDocumentFromPlan]
  simp only [isNone_some, Bool.and_false, startDoc_of_unusable hunusable, bind_some,
    happly]
  exact ⟨_, rfl, containsAll_iff hplan hreceived⟩

/-! ### Those of a fold -/

section Fold

variable {entriesOfPrefix docAllMeta : List DocEntryMetadata}

theorem not_isReplayEntry_of_docSnapshot {e : StoreEntryMetadata} (h : e.entryType = .docSnapshot) :
    isReplayEntry e = false := by
  rw [isReplayEntry, h]
  decide

theorem replayIds_foldInput (hreplay : ∀ em ∈ entriesOfPrefix,
      isReplayEntry em.toStoreEntryMetadata = true) :
    replayIds (foldInput entriesOfPrefix docAllMeta) = entriesOfPrefix.map (·.id) := by
  rw [replayIds, foldInput, filter_append, filter_eq_self.mpr hreplay,
    filter_eq_nil_iff.mpr, append_nil]
  intro em hem
  simp only [mem_filter, Bool.and_eq_true, decide_eq_true_eq] at hem
  simp [not_isReplayEntry_of_docSnapshot hem.2.1]

theorem nodup_foldInput (hids : (docAllMeta.map (·.id)).Nodup)
    (hfront : (entriesOfPrefix.map (·.id)).Nodup)
    (hreplay : ∀ em ∈ entriesOfPrefix, em ∈ docAllMeta ∧
      isReplayEntry em.toStoreEntryMetadata = true) :
    ((foldInput entriesOfPrefix docAllMeta).map (·.id)).Nodup := by
  rw [foldInput, map_append, nodup_append]
  refine ⟨hfront, hids.sublist (filter_sublist.map _), ?_⟩
  intro id hid id' hid' heq
  obtain ⟨em, hem, rfl⟩ := List.mem_map.mp hid
  obtain ⟨em', hem', rfl⟩ := List.mem_map.mp hid'
  obtain ⟨hmem', hsnapshot⟩ := mem_filter.mp hem'
  have hsame : em = em' := inj_on_of_nodup_map hids (hreplay em hem).1 hmem' heq
  subst hsame
  simp only [Bool.and_eq_true, decide_eq_true_eq] at hsnapshot
  have hnot := not_isReplayEntry_of_docSnapshot hsnapshot.1
  rw [(hreplay em hem).2] at hnot
  exact Bool.noConfusion hnot

/-- Nothing comes before the first revision. -/
theorem foldInput_nil : foldInput [] docAllMeta = [] := by
  rw [foldInput, nil_append, filter_eq_nil_iff]
  intro em _
  simpa [snapshotRootsWithin] using fun _ h => exists_mem_of_ne_nil _ h

theorem seedRevisionFold_of_unusable (docId : JSString) (cached : Option (RevisionFeedDocState am))
    (hids : (docAllMeta.map (·.id)).Nodup) (hfront : (entriesOfPrefix.map (·.id)).Nodup)
    (hreplay : ∀ em ∈ entriesOfPrefix, em ∈ docAllMeta ∧
      isReplayEntry em.toStoreEntryMetadata = true)
    (hpresent : rt.Present (entriesOfPrefix.map (·.id)))
    (hcached : cached.filter (fun cached => cached.coveredIds.toList.all fun id =>
      id ∈ entriesOfPrefix.map (·.id)) = none)
    (hunusable : rt.Unusable (metadataById (foldInput entriesOfPrefix docAllMeta))
      (computeDocumentMaterializationPlan docId (planned (foldInput entriesOfPrefix docAllMeta))
        false).snapshotEntryId) :
    ∃ seed doc, rt.seedRevisionFold docId cached entriesOfPrefix docAllMeta = some seed
      ∧ seed.doc = some doc ∧ (rt.ContainsAll doc (entriesOfPrefix.map (·.id))
        ↔ rt.Recovers (foldInput entriesOfPrefix docAllMeta)) := by
  have hslice : replayIds (foldInput entriesOfPrefix docAllMeta) = entriesOfPrefix.map (·.id) :=
    replayIds_foldInput fun em hem => (hreplay em hem).2
  have hinput := nodup_foldInput hids hfront hreplay
  rw [← hslice] at hpresent
  obtain ⟨loadedDoc, happly, hreceived⟩ := (present_planEntries hinput hpresent docId
    false).applyChangeEntries am.init
  rw [am.received_init, Set.empty_union, map_id_planEntries hinput] at hreceived
  have hempty : entriesOfPrefix.isEmpty = false := by
    refine isEmpty_eq_false_iff.mpr fun hnil => hunusable.ne_nil ?_
    rw [hnil, foldInput_nil]
  rw [seedRevisionFold]
  simp only [hempty, hcached, startDoc_of_unusable hunusable, bind_some, happly]
  refine ⟨_, loadedDoc, rfl, rfl, ?_⟩
  rw [← hslice]
  exact containsAll_iff_recovers hinput hreceived

end Fold

/-! ## The result -/

/-- **A snapshot that cannot be used is lossless exactly when it covers nothing that is needed.** -/
theorem snapshotFallback_iff (rt : MaterializationRuntime am) (docId : JSString) :
    (∀ metas, (metas.map (·.id)).Nodup → rt.Present (replayIds metas) →
      rt.Unusable (metadataById metas)
        (computeDocumentMaterializationPlan docId (planned metas) true).snapshotEntryId →
      rt.lacksKey metas = false →
      ∃ loaded, rt.loadDocumentInternal docId metas = some (some loaded)
        ∧ (rt.ContainsAll loaded.doc (replayIds metas) ↔ rt.Recovers metas))
    ∧ (∀ metas timestamp, (metas.map (·.id)).Nodup →
      rt.Present (replayIds (relevantEntries metas timestamp)) →
      rt.Unusable (metadataById (relevantEntries metas timestamp))
        (computeDocumentMaterializationPlan docId (planned (relevantEntries metas timestamp))
          false).snapshotEntryId →
      ∃ loaded, rt.getDocumentAtTimestamp docId metas timestamp = some (some loaded)
        ∧ (rt.ContainsAll loaded.doc (replayIds (relevantEntries metas timestamp))
          ↔ rt.Recovers (relevantEntries metas timestamp)))
    ∧ (∀ allEntryMetadata slice snapshotEntryId entryIdsToApply fallbackTimestamp,
      (allEntryMetadata.map (·.id)).Nodup → (∀ em ∈ slice, em ∈ allEntryMetadata) →
      (∀ id ∈ entryIdsToApply, id ∈ replayIds slice) → rt.Present (replayIds slice) →
      rt.Unusable (metadataById allEntryMetadata) snapshotEntryId →
      ∃ loaded, rt.materializeDocumentFromPlan allEntryMetadata slice snapshotEntryId
          entryIdsToApply fallbackTimestamp = some (some loaded)
        ∧ (rt.ContainsAll loaded.doc (replayIds slice) ↔ rt.Whole (replayIds slice)
          ∧ rt.Applies (replayIds slice) {id | id ∈ entryIdsToApply}))
    ∧ (∀ cached entriesOfPrefix docAllMeta, (docAllMeta.map (·.id)).Nodup →
      (entriesOfPrefix.map (·.id)).Nodup →
      (∀ em ∈ entriesOfPrefix, em ∈ docAllMeta ∧ isReplayEntry em.toStoreEntryMetadata = true) →
      rt.Present (entriesOfPrefix.map (·.id)) →
      cached.filter (fun cached => cached.coveredIds.toList.all fun id =>
        id ∈ entriesOfPrefix.map (·.id)) = none →
      rt.Unusable (metadataById (foldInput entriesOfPrefix docAllMeta))
        (computeDocumentMaterializationPlan docId (planned (foldInput entriesOfPrefix docAllMeta))
          false).snapshotEntryId →
      ∃ seed doc, rt.seedRevisionFold docId cached entriesOfPrefix docAllMeta = some seed
        ∧ seed.doc = some doc ∧ (rt.ContainsAll doc (entriesOfPrefix.map (·.id))
          ↔ rt.Recovers (foldInput entriesOfPrefix docAllMeta))) := by
  refine ⟨?_, ?_, ?_, ?_⟩
  · intro metas hids hpresent hunusable hkey
    exact loadDocumentInternal_of_unusable hids hpresent docId hunusable hkey
  · intro metas timestamp hids hpresent hunusable
    exact getDocumentAtTimestamp_of_unusable docId timestamp hids hpresent hunusable
  · intro allEntryMetadata slice snapshotEntryId entryIdsToApply fallbackTimestamp
    exact materializeDocumentFromPlan_of_unusable entryIdsToApply fallbackTimestamp
  · intro cached entriesOfPrefix docAllMeta
    exact seedRevisionFold_of_unusable docId cached

/-- What the store knows of two entries and of a snapshot of the first. -/
def twoEntriesMetas : List DocEntryMetadata :=
  [⟨.unwitnessed .docCreate "a" "d" "h" [] 1, "default", "k", none⟩,
    ⟨.unwitnessed .docChange "b" "d" "h" ["a"] 2, "default", "k", none⟩,
    ⟨.unwitnessed .docSnapshot "s" "d" "h" ["a"] 3, "default", "k", none⟩]

/-- The second entry holds the change `second`, and the payload of the snapshot is gone. -/
def twoEntriesRuntime (second : UInt8) : MaterializationRuntime Automerge.ofBytes where
  getEntry id := ((twoEntriesMetas.take 2).find? fun e => e.id = id).map fun e =>
    ⟨e, if e.entryType = .docCreate then [1] else [second]⟩
  shouldSkipLoadedEntryForBuiltin _ := false
  verifyEntrySignature _ := true
  isTrustedKey _ := true
  verifyEntrySignatureWithKey _ := true
  decryptPayload e := some e.encryptedData
  hasDecryptionKey _ _ := true
  lastModifiedOf _ := none
  semanticNow := 0
  localeCompare _ _ := 0

theorem unusable_twoEntriesMetas (second : UInt8) :
    (twoEntriesRuntime second).Unusable (metadataById twoEntriesMetas) (some "s") :=
  ⟨_, rfl, rfl⟩

theorem present_twoEntriesMetas (second : UInt8) :
    (twoEntriesRuntime second).Present (replayIds twoEntriesMetas) := by
  intro id hid
  rcases mem_pair.mp (hid : id ∈ [("a" : JSString), "b"]) with rfl | rfl <;> rfl

/-- Only the second entry is left to be applied. -/
theorem mem_leftToApply_twoEntriesMetas {id : JSString} :
    id ∈ leftToApply (planned twoEntriesMetas) ↔ id = "b" := by
  have hplan : (computeDocumentMaterializationPlan "d" (planned twoEntriesMetas)
      true).entryIdsToApply = ["b"] := by decide
  rw [← mem_entryIdsToApply (by decide) "d" true, hplan]
  exact mem_singleton

theorem changeOf_twoEntriesRuntime {second : UInt8} :
    (twoEntriesRuntime second).changeOf "a" = some ⟨JSString.ofNat 1, []⟩
      ∧ (twoEntriesRuntime second).changeOf "b" = some ⟨JSString.ofNat second.toNat, []⟩ :=
  ⟨rfl, rfl⟩

/-- Two entries with one change. -/
theorem recovers_twoEntriesMetas : (twoEntriesRuntime 1).Recovers twoEntriesMetas := by
  have hone : ∀ id ∈ replayIds twoEntriesMetas, ∀ change,
      (twoEntriesRuntime 1).changeOf id = some change → change = ⟨JSString.ofNat 1, []⟩ := by
    intro id hid change hchange
    rcases mem_pair.mp (hid : id ∈ [("a" : JSString), "b"]) with rfl | rfl
    · exact (some.inj (changeOf_twoEntriesRuntime.1.symm.trans hchange)).symm
    · exact (some.inj (changeOf_twoEntriesRuntime.2.symm.trans hchange)).symm
  constructor
  · intro id hid change hchange
    refine .intro ⟨id, hid, hchange⟩ (fun _ => change) ?_ ?_
    all_goals simp [hone id hid change hchange]
  · intro id hid change hchange
    obtain rfl := hone id hid change hchange
    exact ⟨"b", mem_leftToApply_twoEntriesMetas.mpr rfl, changeOf_twoEntriesRuntime.2⟩

/-- Two entries with different changes. -/
theorem not_recovers_twoEntriesMetas : ¬ (twoEntriesRuntime 2).Recovers twoEntriesMetas := by
  intro h
  obtain ⟨other, hother, hchange⟩ := h.2 "a" (by decide) _ changeOf_twoEntriesRuntime.1
  obtain rfl := mem_leftToApply_twoEntriesMetas.mp hother
  rw [changeOf_twoEntriesRuntime.2] at hchange
  exact nomatch hchange

theorem snapshotFallback_iff_twoEntriesMetas :
    (∃ loaded, (twoEntriesRuntime 1).loadDocumentInternal "d" twoEntriesMetas = some (some loaded)
      ∧ (twoEntriesRuntime 1).ContainsAll loaded.doc (replayIds twoEntriesMetas))
    ∧ (∃ loaded, (twoEntriesRuntime 1).getDocumentAtTimestamp "d" twoEntriesMetas 9
        = some (some loaded)
      ∧ (twoEntriesRuntime 1).ContainsAll loaded.doc (replayIds twoEntriesMetas))
    ∧ (∃ loaded, (twoEntriesRuntime 1).materializeDocumentFromPlan twoEntriesMetas twoEntriesMetas
        (some "s") ["b"] 0 = some (some loaded)
      ∧ (twoEntriesRuntime 1).ContainsAll loaded.doc (replayIds twoEntriesMetas))
    ∧ (∃ seed doc, (twoEntriesRuntime 1).seedRevisionFold "d" none (twoEntriesMetas.take 2)
        twoEntriesMetas = some seed
      ∧ seed.doc = some doc
      ∧ (twoEntriesRuntime 1).ContainsAll doc (replayIds twoEntriesMetas)) := by
  obtain ⟨hload, hpast, hgiven, hseed⟩ := snapshotFallback_iff (twoEntriesRuntime 1) "d"
  have hpresent := present_twoEntriesMetas 1
  have hunusable := unusable_twoEntriesMetas 1
  refine ⟨?_, ?_, ?_, ?_⟩
  · obtain ⟨loaded, hloaded, hiff⟩ := hload twoEntriesMetas (by decide) hpresent hunusable rfl
    exact ⟨loaded, hloaded, hiff.mpr recovers_twoEntriesMetas⟩
  · obtain ⟨loaded, hloaded, hiff⟩ := hpast twoEntriesMetas 9 (by decide) hpresent hunusable
    exact ⟨loaded, hloaded, hiff.mpr recovers_twoEntriesMetas⟩
  · obtain ⟨loaded, hloaded, hiff⟩ := hgiven twoEntriesMetas twoEntriesMetas (some "s") ["b"] 0
      (by decide) (fun _ => id) (by decide) hpresent hunusable
    refine ⟨loaded, hloaded, hiff.mpr ⟨recovers_twoEntriesMetas.1, ?_⟩⟩
    refine recovers_twoEntriesMetas.2.mono fun id hid => ?_
    exact mem_singleton.mpr (mem_leftToApply_twoEntriesMetas.mp hid)
  · obtain ⟨seed, doc, hseeded, hdoc, hiff⟩ := hseed none (twoEntriesMetas.take 2) twoEntriesMetas
      (by decide) (by decide) (by decide) hpresent rfl hunusable
    exact ⟨seed, doc, hseeded, hdoc, hiff.mpr recovers_twoEntriesMetas⟩

/-- **None of the four ways notices**: the change of the first entry is lost. -/
theorem not_snapshotFallback :
    (∃ loaded, (twoEntriesRuntime 2).loadDocumentInternal "d" twoEntriesMetas = some (some loaded)
      ∧ ¬ (twoEntriesRuntime 2).ContainsAll loaded.doc (replayIds twoEntriesMetas))
    ∧ (∃ loaded, (twoEntriesRuntime 2).getDocumentAtTimestamp "d" twoEntriesMetas 9
        = some (some loaded)
      ∧ ¬ (twoEntriesRuntime 2).ContainsAll loaded.doc (replayIds twoEntriesMetas))
    ∧ (∃ loaded, (twoEntriesRuntime 2).materializeDocumentFromPlan twoEntriesMetas twoEntriesMetas
        (some "s") ["b"] 0 = some (some loaded)
      ∧ ¬ (twoEntriesRuntime 2).ContainsAll loaded.doc (replayIds twoEntriesMetas))
    ∧ (∃ seed doc, (twoEntriesRuntime 2).seedRevisionFold "d" none (twoEntriesMetas.take 2)
        twoEntriesMetas = some seed
      ∧ seed.doc = some doc
      ∧ ¬ (twoEntriesRuntime 2).ContainsAll doc (replayIds twoEntriesMetas)) := by
  have hpresent := present_twoEntriesMetas 2
  have hunusable := unusable_twoEntriesMetas 2
  have hlost := not_recovers_twoEntriesMetas
  have hids : (twoEntriesMetas.map (·.id)).Nodup := by decide
  have hfront : ((twoEntriesMetas.take 2).map (·.id)).Nodup := by decide
  refine ⟨?_, ?_, ?_, ?_⟩
  · obtain ⟨loaded, hloaded, hiff⟩ := loadDocumentInternal_of_unusable hids hpresent "d"
      hunusable rfl
    exact ⟨loaded, hloaded, hiff.not.mpr hlost⟩
  · obtain ⟨loaded, hloaded, hiff⟩ := getDocumentAtTimestamp_of_unusable "d" 9 hids
      hpresent hunusable
    exact ⟨loaded, hloaded, hiff.not.mpr hlost⟩
  · obtain ⟨loaded, hloaded, hiff⟩ := materializeDocumentFromPlan_of_unusable ["b"] 0
      hids (fun _ => id) (by decide) hpresent hunusable
    refine ⟨loaded, hloaded, hiff.not.mpr fun h => hlost ⟨h.1, h.2.mono fun id hid => ?_⟩⟩
    exact mem_leftToApply_twoEntriesMetas.mpr (mem_singleton.mp hid)
  · obtain ⟨seed, doc, hseeded, hdoc, hiff⟩ := seedRevisionFold_of_unusable "d" none hids hfront
      (by decide) hpresent rfl hunusable
    exact ⟨seed, doc, hseeded, hdoc, hiff.not.mpr hlost⟩

end MaterializationRuntime

end MindooDB
