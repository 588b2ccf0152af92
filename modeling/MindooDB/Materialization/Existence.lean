import MindooDB.Materialization.Agreement
import MindooDB.Materialization.Fallback
import MindooDB.Store.InMemory

/-!
# Materialization/Existence — which documents existed at a point in time

`core/BaseMindooDB.ts`: `getAllDocumentIdsAtTimestamp` lists the documents with a create entry that
no lifecycle entry up to that time leaves deleted; `getDocumentAtTimestamp` materializes what is
grounded at that time.  Both take the deletion from the same slice, in different orders.

They part where the slice is grounded without a create entry, as that of a snapshot may be, or where
a create entry is not grounded (`existence_iff`).
-/

namespace MindooDB

open List

/-- The metadata that a store holds, in the order of its map. -/
structure StoreContent where
  entries : List DocEntryMetadata
  nodup : (entries.map (·.id)).Nodup

/-- `Number.MAX_SAFE_INTEGER`. -/
def MAX_SAFE_INTEGER : ℤ := 9007199254740991

namespace MaterializationRuntime

variable {am : Automerge} (rt : MaterializationRuntime am) (store : StoreContent)
  (timeTravelDate : Option ℤ) (timestamp : ℤ)

def findEntries (entryType : StoreEntryType) (creationDateUntil : ℤ) : List DocEntryMetadata :=
  store.entries.filter fun em => em.entryType = entryType && em.createdAt < creationDateUntil

/-- The entries of a document, in the order of the feed. -/
def scanAllMetadata (docId : JSString) : List DocEntryMetadata :=
  sortBy (fun l r => InMemoryStore.compareSorted rt.localeCompare l.toStoreEntryMetadata
      r.toStoreEntryMetadata)
    (store.entries.filter fun em => em.docId = docId && timeTravelDate.all (em.createdAt < ·))

def upperBoundExclusive : ℤ :=
  let bound := if timestamp = MAX_SAFE_INTEGER then timestamp else timestamp + 1
  timeTravelDate.elim bound (min bound)

def addLifecycleEntry (byDocId : LinkedMap JSString (List DocEntryMetadata))
    (entry : DocEntryMetadata) : LinkedMap JSString (List DocEntryMetadata) :=
  byDocId.set entry.docId ((byDocId.get? entry.docId).getD [] ++ [entry])

/-- The creates, the deletes and the undeletes. -/
def foundEntries : List DocEntryMetadata :=
  let bound := upperBoundExclusive timeTravelDate timestamp
  findEntries store .docCreate bound ++ findEntries store .docDelete bound
    ++ findEntries store .docUndelete bound

def lifecycleEntriesByDocId : LinkedMap JSString (List DocEntryMetadata) :=
  (foundEntries store timeTravelDate timestamp).foldl addLifecycleEntry ∅

/-- The entries of a document up to a point in time, as they are scanned. -/
def sliceEntries (docId : JSString) : List DocEntryMetadata :=
  (rt.scanAllMetadata store timeTravelDate docId).filter fun em =>
    em.createdAt ≤ timestamp && (isReplayEntry em.toStoreEntryMetadata
      || em.entryType = .docSnapshot)

/-- `computeIsDeletedFromMetadata` of what is grounded. -/
def isDeletedAtTimestamp (docId : JSString) : Bool :=
  computeIsDeletedFromMetadata rt.localeCompare
    (pruneToGroundedEntries (planned (rt.sliceEntries store timeTravelDate timestamp docId)))

/-- The body of the loop over the documents. -/
def existsAtTimestamp (docId : JSString) (lifecycleEntries : List DocEntryMetadata) : Bool :=
  if !lifecycleEntries.any fun em => em.entryType = .docCreate && em.createdAt ≤ timestamp then false
  else if (lifecycleEntries.find? fun em => em.entryType = .docCreate).any fun createEntry =>
      !rt.hasDecryptionKey [] createEntry.decryptionKeyId then false
  else
    let terminalEntries := lifecycleEntries.filter fun em =>
      (em.entryType = .docDelete || em.entryType = .docUndelete) && em.createdAt ≤ timestamp
    terminalEntries.isEmpty || !rt.isDeletedAtTimestamp store timeTravelDate timestamp docId

def getAllDocumentIdsAtTimestamp : List JSString :=
  ((lifecycleEntriesByDocId store timeTravelDate timestamp).toList.filter fun p =>
    rt.existsAtTimestamp store timeTravelDate timestamp p.1 p.2).map Prod.fst

/-! ## The condition -/

/-- What the list looks at of a document. -/
def lifecycleEntriesOf (docId : JSString) : List DocEntryMetadata :=
  (foundEntries store timeTravelDate timestamp).filter fun em => em.docId = docId

/-- A create entry is found, and its key is there. -/
def Created (docId : JSString) : Prop :=
  (∃ em ∈ lifecycleEntriesOf store timeTravelDate timestamp docId,
    em.entryType = .docCreate ∧ em.createdAt ≤ timestamp) ∧
  ∀ em ∈ (lifecycleEntriesOf store timeTravelDate timestamp docId).find? fun em =>
    em.entryType = .docCreate, rt.hasDecryptionKey [] em.decryptionKeyId = true

/-- A delete or an undelete is found. -/
def Terminated (docId : JSString) : Prop :=
  ∃ em ∈ lifecycleEntriesOf store timeTravelDate timestamp docId,
    (em.entryType = .docDelete ∨ em.entryType = .docUndelete) ∧ em.createdAt ≤ timestamp

/-- Something of a document is grounded at a point in time. -/
def GroundedAt (docId : JSString) : Prop :=
  pruneToGroundedEntries (planned (rt.sliceEntries store timeTravelDate timestamp docId)) ≠ []

/-- **When the two agree**: what is grounded is deleted, and the list notices it; or it is not, and
a create entry is found just when something is grounded. -/
def ExistenceAgrees (docId : JSString) : Prop :=
  if rt.isDeletedAtTimestamp store timeTravelDate timestamp docId then
    rt.Created store timeTravelDate timestamp docId → Terminated store timeTravelDate timestamp docId
  else
    rt.Created store timeTravelDate timestamp docId ↔
      rt.GroundedAt store timeTravelDate timestamp docId

/-- Entries that are validly signed can be read. -/
structure Readable : Prop where
  snapshots : ∀ entry, rt.verifyEntrySignature entry = true →
    ((rt.decryptPayload entry).bind am.load).isSome
  changes : ∀ entry doc, rt.verifyEntrySignature entry = true →
    ((rt.decryptPayload entry).bind (am.loadIncremental doc)).isSome

variable {rt store timeTravelDate timestamp} {docId : JSString}

/-! ## The list -/

variable (docId) in
theorem getD_get?_foldl_addLifecycleEntry (l : List DocEntryMetadata)
    (m : LinkedMap JSString (List DocEntryMetadata)) :
    ((l.foldl addLifecycleEntry m).get? docId).getD []
      = (m.get? docId).getD [] ++ l.filter fun em => em.docId = docId := by
  induction l generalizing m with
  | nil => simp
  | cons em l ih =>
    rw [foldl_cons, ih, addLifecycleEntry, LinkedMap.get?_set, filter_cons]
    by_cases hdoc : docId = em.docId
    · subst hdoc
      simp
    · simp [hdoc, Ne.symm hdoc]

theorem existsAtTimestamp_iff : rt.existsAtTimestamp store timeTravelDate timestamp docId
      (lifecycleEntriesOf store timeTravelDate timestamp docId) = true
    ↔ rt.Created store timeTravelDate timestamp docId ∧
      (Terminated store timeTravelDate timestamp docId →
        rt.isDeletedAtTimestamp store timeTravelDate timestamp docId = false) := by
  have hcreate : ((lifecycleEntriesOf store timeTravelDate timestamp docId).any fun em =>
      em.entryType = .docCreate && em.createdAt ≤ timestamp) = true ↔
      ∃ em ∈ lifecycleEntriesOf store timeTravelDate timestamp docId,
        em.entryType = .docCreate ∧ em.createdAt ≤ timestamp := by
    simp only [any_eq_true, Bool.and_eq_true, decide_eq_true_eq]
  have hkey : (((lifecycleEntriesOf store timeTravelDate timestamp docId).find? fun em =>
      em.entryType = .docCreate).any fun createEntry =>
        !rt.hasDecryptionKey [] createEntry.decryptionKeyId) = false ↔
      ∀ em ∈ (lifecycleEntriesOf store timeTravelDate timestamp docId).find? fun em =>
        em.entryType = .docCreate, rt.hasDecryptionKey [] em.decryptionKeyId = true := by
    rcases (lifecycleEntriesOf store timeTravelDate timestamp docId).find? _ with _ | em
    · simp
    · simp
  have hterminal : ((lifecycleEntriesOf store timeTravelDate timestamp docId).filter fun em =>
      (em.entryType = .docDelete || em.entryType = .docUndelete) && em.createdAt ≤ timestamp).isEmpty
        = true ↔ ¬Terminated store timeTravelDate timestamp docId := by
    simp only [List.isEmpty_iff, filter_eq_nil_iff, Bool.and_eq_true, Bool.or_eq_true,
      decide_eq_true_eq, Terminated, not_exists, not_and]
  rw [existsAtTimestamp, Created]
  split_ifs with hno hnokey
  · rw [Bool.not_eq_true', ← Bool.not_eq_true, hcreate] at hno
    exact ⟨fun h => h.elim, fun h => absurd h.1.1 hno⟩
  · rw [← hkey, hnokey]
    exact ⟨fun h => h.elim, fun h => absurd h.1.2 Bool.noConfusion⟩
  · rw [Bool.not_eq_true', Bool.not_eq_false, hcreate] at hno
    rw [Bool.not_eq_true, hkey] at hnokey
    rw [Bool.or_eq_true, hterminal, Bool.not_eq_true', imp_iff_not_or]
    exact (and_iff_right ⟨hno, hnokey⟩).symm

theorem mem_getAllDocumentIdsAtTimestamp :
    docId ∈ rt.getAllDocumentIdsAtTimestamp store timeTravelDate timestamp
      ↔ rt.Created store timeTravelDate timestamp docId ∧
        (Terminated store timeTravelDate timestamp docId →
          rt.isDeletedAtTimestamp store timeTravelDate timestamp docId = false) := by
  have hentries := getD_get?_foldl_addLifecycleEntry docId
    (foundEntries store timeTravelDate timestamp) ∅
  rw [LinkedMap.get?_empty, Option.getD_none, nil_append] at hentries
  rw [← existsAtTimestamp_iff, lifecycleEntriesOf, ← hentries, getAllDocumentIdsAtTimestamp,
    mem_map]
  constructor
  · rintro ⟨⟨docId', lifecycleEntries⟩, hmem, rfl⟩
    obtain ⟨hmem, hexists⟩ := mem_filter.mp hmem
    rw [LinkedMap.mem_toList_iff, lifecycleEntriesByDocId] at hmem
    rwa [hmem]
  · intro hexists
    rcases hget : ((foundEntries store timeTravelDate timestamp).foldl addLifecycleEntry ∅).get? docId
      with _ | lifecycleEntries
    · rw [hget] at hexists
      exact Bool.noConfusion hexists
    · rw [hget] at hexists
      exact ⟨(docId, lifecycleEntries),
        mem_filter.mpr ⟨LinkedMap.mem_toList_iff.mpr hget, hexists⟩, rfl⟩

/-! ## The document -/

section Slice

variable {metas : List DocEntryMetadata}

/-- The entries of a slice, sorted by their times, and those of it that are grounded. -/
theorem planned_relevantEntries (timestamp : ℤ) : planned (relevantEntries metas timestamp)
    = pruneToGroundedEntries (planned (sortBy (fun l r => l.createdAt - r.createdAt)
      (metas.filter fun em => em.createdAt ≤ timestamp &&
        (isReplayEntry em.toStoreEntryMetadata || em.entryType = .docSnapshot)))) := by
  have hprune : ∀ slice : List DocEntryMetadata,
      planned (slice.filter fun em => em.toStoreEntryMetadata ∈ pruneToGroundedEntries (planned slice))
        = pruneToGroundedEntries (planned slice) := by
    intro slice
    obtain ⟨keeps, hkeeps⟩ : ∃ keeps, pruneToGroundedEntries (planned slice)
        = (planned slice).filter keeps := ⟨_, rfl⟩
    rw [hkeeps, planned, planned, filter_map]
    refine congrArg (List.map _) (filter_congr fun em hem => ?_)
    rw [← filter_map, Bool.eq_iff_iff, decide_eq_true_eq, mem_filter]
    exact and_iff_right (mem_map_of_mem hem)
  exact hprune _

end Slice

/-- Reading what can be read does not fail. -/
theorem Readable.startDoc (h : rt.Readable) (byId : LinkedMap JSString DocEntryMetadata)
    (snapshotEntryId : Option JSString) : (rt.startDoc byId snapshotEntryId).isSome := by
  rw [MaterializationRuntime.startDoc]
  split
  · rfl
  rename_i snapshotMeta _
  rw [Option.isSome_map, loadSnapshotForFold]
  split
  · rfl
  rename_i snapshotData _ _
  split_ifs with hskip hverify
  · rfl
  · rfl
  rw [Bool.not_eq_true', Bool.not_eq_false] at hverify
  obtain ⟨doc, hdoc⟩ := Option.isSome_iff_exists.mp (h.snapshots snapshotData hverify)
  rw [hdoc]
  simp only
  split <;> rfl

theorem Readable.applyOne (h : rt.Readable) (doc : am.Doc) (entryMeta : DocEntryMetadata) :
    (rt.applyOne doc entryMeta).isSome := by
  rw [MaterializationRuntime.applyOne]
  split
  · rfl
  rename_i entryData _
  split_ifs with hskip hverify
  · rfl
  · rfl
  · rw [Bool.not_eq_true', Bool.not_eq_false] at hverify
    exact h.changes entryData doc hverify

theorem Readable.foldlM_applyOne (h : rt.Readable) (entries : List DocEntryMetadata) (doc : am.Doc) :
    (entries.foldlM rt.applyOne doc).isSome := by
  induction entries generalizing doc with
  | nil => rfl
  | cons entryMeta entries ih =>
    obtain ⟨doc', hdoc'⟩ := Option.isSome_iff_exists.mp (h.applyOne doc entryMeta)
    rw [foldlM_cons, hdoc']
    exact ih doc'

theorem Readable.getDocumentAtTimestamp (h : rt.Readable) (metas : List DocEntryMetadata) :
    (∃ doc, rt.getDocumentAtTimestamp docId metas timestamp = some (some doc)
        ∧ doc.isDeleted = false)
      ↔ planned (relevantEntries metas timestamp) ≠ [] ∧
        computeIsDeletedFromMetadata rt.localeCompare (planned (relevantEntries metas timestamp))
          = false := by
  rw [MaterializationRuntime.getDocumentAtTimestamp]
  rcases hrelevant : relevantEntries metas timestamp with _ | ⟨em, rest⟩
  · simp
  obtain ⟨start, hstart⟩ := Option.isSome_iff_exists.mp (h.startDoc (metadataById (em :: rest))
    (computeDocumentMaterializationPlan docId (planned (em :: rest)) false).snapshotEntryId)
  obtain ⟨doc, hdoc⟩ := Option.isSome_iff_exists.mp (h.foldlM_applyOne
    (entriesToApply (metadataById (em :: rest)) (computeDocumentMaterializationPlan docId
      (planned (em :: rest)) false).entryIdsToApply) start)
  have hne : planned (em :: rest) ≠ [] := cons_ne_nil _ _
  simp only [isEmpty_cons, Bool.false_eq_true, if_false, hstart, Option.bind_some, hdoc,
    Option.some.injEq, exists_eq_left', hne, ne_eq, not_false_eq_true, true_and]

theorem mem_of_mem_sliceEntries {em : DocEntryMetadata}
    (hem : em ∈ rt.sliceEntries store timeTravelDate timestamp docId) :
    em ∈ store.entries.filter fun em => em.docId = docId := by
  have hscan := mem_sortBy.mp (mem_of_mem_filter hem)
  simp only [mem_filter, Bool.and_eq_true] at hscan ⊢
  exact ⟨hscan.1, hscan.2.1⟩

theorem nodup_sliceEntries :
    ((planned (rt.sliceEntries store timeTravelDate timestamp docId)).map (·.id)).Nodup := by
  have hscan : ((rt.scanAllMetadata store timeTravelDate docId).map (·.id)).Nodup :=
    ((perm_sortBy _ _).map _).nodup_iff.mpr (store.nodup.sublist (filter_sublist.map _))
  rw [planned, map_map]
  exact hscan.sublist (filter_sublist.map _)

/-- **A document shows at a point in time** when something of it is grounded, and not deleted. -/
theorem Readable.exists_getDocumentAtTimestamp (h : rt.Readable) (horders : Orders rt.localeCompare)
    (hseparates : Separates rt.localeCompare
      ((store.entries.filter fun em => em.docId = docId).map (·.id))) :
    (∃ doc, rt.getDocumentAtTimestamp docId (rt.scanAllMetadata store timeTravelDate docId) timestamp
        = some (some doc) ∧ doc.isDeleted = false)
      ↔ rt.GroundedAt store timeTravelDate timestamp docId ∧
        rt.isDeletedAtTimestamp store timeTravelDate timestamp docId = false := by
  let slice := rt.sliceEntries store timeTravelDate timestamp docId
  have hids : ((planned slice).map (·.id)).Nodup := nodup_sliceEntries
  have hslice : (planned slice).map (·.id) ⊆
      (store.entries.filter fun em => em.docId = docId).map (·.id) := by
    intro id hid
    rw [planned, map_map] at hid
    obtain ⟨em, hem, rfl⟩ := mem_map.mp hid
    exact mem_map_of_mem (mem_of_mem_sliceEntries hem)
  have hsorted := (perm_sortBy (fun l r : DocEntryMetadata => l.createdAt - r.createdAt) slice).map
    (·.toStoreEntryMetadata)
  have hgrounded := pruneToGroundedEntries_perm hids hsorted
  have hsub : (pruneToGroundedEntries (planned slice)).Sublist (planned slice) := filter_sublist
  have hdeleted := computeIsDeletedFromMetadata_perm (hids.sublist (hsub.map _)) horders
    (hseparates.of_subset fun id hid => hslice ((hsub.map _).subset hid)) hgrounded
  rw [h.getDocumentAtTimestamp, planned_relevantEntries]
  refine and_congr ?_ (Eq.congr_left hdeleted)
  exact not_congr ⟨fun hnil => (hnil ▸ hgrounded).symm.eq_nil, fun hnil => (hnil ▸ hgrounded).eq_nil⟩

end MaterializationRuntime

open MaterializationRuntime

/-- **The two notions of existence**, and when they are one. -/
theorem existence_iff {am : Automerge} (rt : MaterializationRuntime am) (hreadable : rt.Readable)
    (horders : Orders rt.localeCompare) (store : StoreContent) (docId : JSString)
    (hseparates : Separates rt.localeCompare
      ((store.entries.filter fun em => em.docId = docId).map (·.id)))
    (timeTravelDate : Option ℤ) (timestamp : ℤ) :
    (docId ∈ rt.getAllDocumentIdsAtTimestamp store timeTravelDate timestamp ↔
        ∃ doc, rt.getDocumentAtTimestamp docId (rt.scanAllMetadata store timeTravelDate docId)
          timestamp = some (some doc) ∧ doc.isDeleted = false)
      ↔ rt.ExistenceAgrees store timeTravelDate timestamp docId := by
  rw [mem_getAllDocumentIdsAtTimestamp,
    hreadable.exists_getDocumentAtTimestamp horders hseparates, ExistenceAgrees]
  split_ifs with hdeleted
  · rw [hdeleted]
    simp only [Bool.true_eq_false, and_false, iff_false, imp_false, not_and, not_not]
  · rw [Bool.not_eq_true] at hdeleted
    simp only [hdeleted, and_true, implies_true]

/-- A document whose create entry comes from a fast clock: its snapshot is older. -/
def skewedStore : StoreContent where
  entries :=
    [⟨.unwitnessed .docCreate "a" "d" "h" [] 100, "default", "k", none⟩,
      ⟨.unwitnessed .docSnapshot "s" "d" "h" ["a"] 50, "default", "k", none⟩]
  nodup := by decide

def skewedRuntime : MaterializationRuntime Automerge.ofBytes :=
  { twoEntriesRuntime 2 with localeCompare := compareByOrder }

theorem readable_skewedRuntime : skewedRuntime.Readable := ⟨fun _ _ => rfl, fun _ _ _ => rfl⟩

theorem existence_iff_skewedStore :
    (("d" : JSString) ∈ skewedRuntime.getAllDocumentIdsAtTimestamp skewedStore none 200 ↔
        ∃ doc, skewedRuntime.getDocumentAtTimestamp "d"
          (skewedRuntime.scanAllMetadata skewedStore none "d") 200 = some (some doc)
            ∧ doc.isDeleted = false)
      ↔ skewedRuntime.ExistenceAgrees skewedStore none 200 "d" :=
  existence_iff skewedRuntime readable_skewedRuntime .ofLinearOrder skewedStore "d"
    (separates_compareByOrder _) none 200

/-- **The snapshot shows the document** before the time of its create entry. -/
theorem not_existence : ¬∀ (am : Automerge) (rt : MaterializationRuntime am), rt.Readable →
    (∀ metas keyId, rt.hasDecryptionKey metas keyId = true) → Orders rt.localeCompare →
    ∀ (store : StoreContent) (docId : JSString), Separates rt.localeCompare
        ((store.entries.filter fun em => em.docId = docId).map (·.id)) →
      ∀ timestamp, docId ∈ rt.getAllDocumentIdsAtTimestamp store none timestamp ↔
        ∃ doc, rt.getDocumentAtTimestamp docId (rt.scanAllMetadata store none docId) timestamp
          = some (some doc) ∧ doc.isDeleted = false := by
  intro h
  have hiff := h _ skewedRuntime readable_skewedRuntime (fun _ _ => rfl) .ofLinearOrder skewedStore
    "d" (separates_compareByOrder _) 60
  rw [readable_skewedRuntime.exists_getDocumentAtTimestamp .ofLinearOrder
    (separates_compareByOrder _)] at hiff
  have hshows : skewedRuntime.GroundedAt skewedStore none 60 "d" :=
    isEmpty_eq_false_iff.mp (by decide +kernel)
  have halive : skewedRuntime.isDeletedAtTimestamp skewedStore none 60 "d" = false := by
    decide +kernel
  have hlisted : ("d" : JSString) ∉ skewedRuntime.getAllDocumentIdsAtTimestamp skewedStore none 60 := by
    decide +kernel
  exact hlisted (hiff.mpr ⟨hshows, halive⟩)

end MindooDB
