import MindooDB.Materialization.Lifecycle

/-!
# Materialization/Load — four ways to materialize a document

`core/BaseMindooDB.ts`: the document of the present (`loadDocumentInternal`, without a cache and
without access control), of a point in time, of a plan, and the start of a revision fold.  Each
starts from the snapshot of a plan, when it can be used, and applies the entries that the plan lists.

Automerge is not part of the repository.  What the materialization relies on is that a document is
made of the changes it was given, in any order: a change shows when everything it depends on does,
and waits until then.

The store does not change meanwhile.  `none` is an exception.  Who witnessed the entries is left out,
and so are the recipients of a sealed document.
-/

namespace MindooDB

structure AutomergeChange where
  hash : JSString
  deps : List JSString
  deriving DecidableEq

/-- **A change with all that it depends on**, among the given ones. -/
inductive Grounded (given : Set AutomergeChange) : AutomergeChange → Prop
  | intro {change : AutomergeChange} (hmem : change ∈ given) (dep : JSString → AutomergeChange)
      (hhash : ∀ hash ∈ change.deps, (dep hash).hash = hash)
      (hdeps : ∀ hash ∈ change.deps, Grounded given (dep hash)) : Grounded given change

variable {given given' : Set AutomergeChange} {change : AutomergeChange}

theorem Grounded.mem (h : Grounded given change) : change ∈ given := by
  obtain ⟨hmem, -⟩ := h
  exact hmem

theorem Grounded.mono (h : Grounded given change) (hsub : given ⊆ given') :
    Grounded given' change := by
  induction h with
  | intro hmem dep hhash _ ih => exact .intro (hsub hmem) dep hhash ih

/-- **What the materialization relies on.**  Bytes that are no change or no document are thrown. -/
structure Automerge where
  Doc : Type
  init : Doc
  load : List UInt8 → Option Doc
  getHeads : Doc → List JSString
  decodeChange : List UInt8 → Option AutomergeChange
  applyChanges : Doc → List (List UInt8) → Option Doc
  loadIncremental : Doc → List UInt8 → Option Doc
  /-- The changes that a document was given. -/
  received : Doc → Set AutomergeChange
  received_init : received init = ∅
  applyChanges_spec : ∀ doc changes, (∀ bytes ∈ changes, (decodeChange bytes).isSome) →
    ∃ doc', applyChanges doc changes = some doc' ∧
      received doc' = received doc ∪ {c | ∃ bytes ∈ changes, decodeChange bytes = some c}
  loadIncremental_spec : ∀ doc bytes, (decodeChange bytes).isSome →
    ∃ doc', loadIncremental doc bytes = some doc' ∧
      received doc' = received doc ∪ {c | decodeChange bytes = some c}

namespace Automerge

variable (am : Automerge)

/-- A change shows in a document. -/
def Contains (doc : am.Doc) (change : AutomergeChange) : Prop :=
  Grounded (am.received doc) change

/-- Documents as lists of the changes they were given, for tests: a change is its hash, a document a
list of hashes, and no change depends on another. -/
def ofBytes : Automerge where
  Doc := List UInt8
  init := []
  load := some
  getHeads doc := doc.map fun b => JSString.ofNat b.toNat
  decodeChange bytes := bytes.head?.map fun b => ⟨JSString.ofNat b.toNat, []⟩
  applyChanges doc changes := some (doc ++ changes.filterMap List.head?)
  loadIncremental doc bytes := some (doc ++ bytes.head?.toList)
  received doc := {c | ∃ b ∈ doc, c = ⟨JSString.ofNat b.toNat, []⟩}
  received_init := by simp
  applyChanges_spec doc changes _ := by
    refine ⟨_, rfl, ?_⟩
    ext c
    simp only [List.mem_append, List.mem_filterMap, Set.mem_ofPred_eq, Set.mem_union,
      Option.map_eq_some_iff]
    constructor
    · rintro ⟨b, hb | ⟨bytes, hbytes, hhead⟩, rfl⟩
      · exact .inl ⟨b, hb, rfl⟩
      · exact .inr ⟨bytes, hbytes, b, hhead, rfl⟩
    · rintro (⟨b, hb, rfl⟩ | ⟨bytes, hbytes, b, hhead, rfl⟩)
      · exact ⟨b, .inl hb, rfl⟩
      · exact ⟨b, .inr ⟨bytes, hbytes, hhead⟩, rfl⟩
  loadIncremental_spec doc bytes _ := by
    refine ⟨_, rfl, ?_⟩
    ext c
    simp only [List.mem_append, Option.mem_toList, Set.mem_ofPred_eq, Set.mem_union,
      Option.map_eq_some_iff]
    constructor
    · rintro ⟨b, hb | hhead, rfl⟩
      · exact .inl ⟨b, hb, rfl⟩
      · exact .inr ⟨b, hhead, rfl⟩
    · rintro (⟨b, hb, rfl⟩ | ⟨b, hhead, rfl⟩)
      · exact ⟨b, .inl hb, rfl⟩
      · exact ⟨b, .inr hhead, rfl⟩

end Automerge

end MindooDB

namespace MindooDB

/-- What a store knows of an entry of a document. -/
structure DocEntryMetadata extends StoreEntryMetadata where
  decryptionKeyId : JSString
  createdByPublicKey : JSString
  snapshotHeadHashes : Option (List JSString) := none
  deriving DecidableEq

structure DocStoreEntry extends DocEntryMetadata where
  encryptedData : List UInt8
  deriving DecidableEq

/-- A document as it is cached. -/
structure MaterializedDoc (am : Automerge) where
  doc : am.Doc
  createdAt : ℤ
  lastModified : ℤ
  decryptionKeyId : JSString
  isDeleted : Bool

/-- What the materialization asks of the store, the tenant and the language runtime. -/
structure MaterializationRuntime (am : Automerge) where
  getEntry : JSString → Option DocStoreEntry
  shouldSkipLoadedEntryForBuiltin : DocStoreEntry → Bool
  verifyEntrySignature : DocStoreEntry → Bool
  /-- The key of an author can be imported, and the directory trusts it. -/
  isTrustedKey : JSString → Bool
  verifyEntrySignatureWithKey : DocStoreEntry → Bool
  decryptPayload : DocStoreEntry → Option (List UInt8)
  /-- The key is there, after what the entries say of their recipients has been taken in. -/
  hasDecryptionKey : List DocEntryMetadata → JSString → Bool
  /-- `_lastModified` of the payload. -/
  lastModifiedOf : am.Doc → Option ℤ
  semanticNow : ℤ
  localeCompare : JSString → JSString → ℤ

def SEALED_KEY_PREFIX : JSString := "$sealed:"

def isSealedKeyId (keyId : JSString) : Bool := keyId.startsWith SEALED_KEY_PREFIX

/-- The heads of a decoded snapshot are those that its entry declares. -/
def snapshotHeadsMatch (decodedHeads : List JSString) (declaredHeads : Option (List JSString)) :
    Bool :=
  let declared := declaredHeads.getD []
  decodedHeads.length = declared.length && decide declared.Nodup
    && decodedHeads.all fun head => head ∈ declared

/-- The metadata as the planner reads it. -/
abbrev planned (metadata : List DocEntryMetadata) : List StoreEntryMetadata :=
  metadata.map (·.toStoreEntryMetadata)

/-- `new Map(entries.map((e) => [e.id, e]))`. -/
def metadataById (metadata : List DocEntryMetadata) : LinkedMap JSString DocEntryMetadata :=
  LinkedMap.ofList (metadata.map fun e => (e.id, e))

/-- The entries that a plan lists, as far as the metadata has them. -/
def entriesToApply (byId : LinkedMap JSString DocEntryMetadata) (entryIdsToApply : List JSString) :
    List DocEntryMetadata :=
  entryIdsToApply.filterMap byId.get?

namespace MaterializationRuntime

variable {am : Automerge} (rt : MaterializationRuntime am)

def getEntries (ids : List JSString) : List DocStoreEntry := ids.filterMap rt.getEntry

/-! ## The snapshot -/

/-- The document of a snapshot, `some none` when it cannot be used. -/
def loadSnapshotForFold (snapshotMeta : DocEntryMetadata) : Option (Option am.Doc) :=
  match rt.getEntries [snapshotMeta.id] with
  | [] => some none
  | snapshotData :: _ =>
    if rt.shouldSkipLoadedEntryForBuiltin snapshotData then some none
    else if !rt.verifyEntrySignature snapshotData then some none
    else
      match (rt.decryptPayload snapshotData).bind am.load with
      | none => none
      | some doc =>
        if snapshotHeadsMatch (am.getHeads doc) snapshotData.snapshotHeadHashes then some (some doc)
        else some none

/-- The document that the entries of a plan are applied to. -/
def startDoc (byId : LinkedMap JSString DocEntryMetadata) (snapshotEntryId : Option JSString) :
    Option am.Doc :=
  match snapshotEntryId.bind byId.get? with
  | none => some am.init
  | some snapshotMeta => (rt.loadSnapshotForFold snapshotMeta).map (·.getD am.init)

/-! ## The entries -/

/-- All at once, with keys imported beforehand. -/
def applyVerified (doc : am.Doc) (entries : List DocStoreEntry) : Option am.Doc :=
  let validEntries := entries.filter fun e => !rt.shouldSkipLoadedEntryForBuiltin e
  let verifiedEntries := validEntries.filter fun e =>
    rt.isTrustedKey e.createdByPublicKey && rt.verifyEntrySignatureWithKey e
  match verifiedEntries.mapM rt.decryptPayload with
  | none => none
  | some [] => some doc
  | some changeBytes => am.applyChanges doc changeBytes

/-- One of the entries that are applied one by one. -/
def applyOne (doc : am.Doc) (entryMeta : DocEntryMetadata) : Option am.Doc :=
  match rt.getEntry entryMeta.id with
  | none => some doc
  | some entryData =>
    if rt.shouldSkipLoadedEntryForBuiltin entryData then some doc
    else if !rt.verifyEntrySignature entryData then some doc
    else (rt.decryptPayload entryData).bind (am.loadIncremental doc)

/-- The entries of a fold. -/
def applyChangeEntries (doc : am.Doc) (metas : List DocEntryMetadata) : Option am.Doc :=
  let verified := (rt.getEntries (metas.map (·.id))).filter rt.verifyEntrySignature
  match verified.mapM rt.decryptPayload with
  | none => none
  | some [] => some doc
  | some changes => am.applyChanges doc changes

/-! ## The four ways -/

/-- The key that a document is to be read with. -/
def loadKeyId (allEntryMetadata : List DocEntryMetadata) : Option JSString :=
  ((allEntryMetadata.find? fun em => em.entryType = .docCreate).or allEntryMetadata.head?).map
    (·.decryptionKeyId)

/-- `some none` when there is no such document, or none that can be read. -/
def loadDocumentInternal (docId : JSString) (allEntryMetadata : List DocEntryMetadata) :
    Option (Option (MaterializedDoc am)) :=
  match allEntryMetadata with
  | [] => some none
  | firstEntry :: _ =>
    if (loadKeyId allEntryMetadata).any fun keyId =>
        isSealedKeyId keyId && !rt.hasDecryptionKey allEntryMetadata keyId then some none
    else
      let byId := metadataById allEntryMetadata
      let plan := computeDocumentMaterializationPlan docId (planned allEntryMetadata) true
      let entries := rt.getEntries ((entriesToApply byId plan.entryIdsToApply).map (·.id))
      match (rt.startDoc byId plan.snapshotEntryId).bind fun doc => rt.applyVerified doc entries with
      | none => none
      | some doc =>
        let createEntry := allEntryMetadata.find? fun em => em.entryType = .docCreate
        some <| some
          { doc := doc
            createdAt := firstEntry.createdAt
            lastModified := orFalsy (rt.lastModifiedOf doc)
              ((entries.getLast?.map (·.createdAt)).getD rt.semanticNow)
            decryptionKeyId := (createEntry.map (·.decryptionKeyId)).getD "default"
            isDeleted := computeIsDeletedFromMetadata rt.localeCompare (planned allEntryMetadata) }

/-- The document of a plan; what its times and its key are taken from comes with it. -/
def materializeDocumentFromPlan (allEntryMetadata replayEntriesForState : List DocEntryMetadata)
    (snapshotEntryId : Option JSString) (entryIdsToApply : List JSString) (fallbackTimestamp : ℤ) :
    Option (Option (MaterializedDoc am)) :=
  if replayEntriesForState.isEmpty && snapshotEntryId.isNone then some none
  else
    let byId := metadataById allEntryMetadata
    let snapshotMeta := snapshotEntryId.bind byId.get?
    match (rt.startDoc byId snapshotEntryId).bind fun doc =>
        (entriesToApply byId entryIdsToApply).foldlM rt.applyOne doc with
    | none => none
    | some doc =>
      let ordered := sortBy (fun l r => compareByCreatedAtThenId rt.localeCompare
        l.toStoreEntryMetadata r.toStoreEntryMetadata) replayEntriesForState
      some <| some
        { doc := doc
          createdAt := ((ordered.head?.or snapshotMeta).map (·.createdAt)).getD fallbackTimestamp
          lastModified := ((ordered.getLast?.or snapshotMeta).map (·.createdAt)).getD
            fallbackTimestamp
          decryptionKeyId := ((ordered.head?.or snapshotMeta).map (·.decryptionKeyId)).getD "default"
          isDeleted := computeIsDeletedFromMetadata rt.localeCompare
            (planned replayEntriesForState) }

/-- The entries of a document up to a point in time that rest on nothing later. -/
def relevantEntries (allEntryMetadata : List DocEntryMetadata) (timestamp : ℤ) :
    List DocEntryMetadata :=
  let upTo := sortBy (fun l r => l.createdAt - r.createdAt) (allEntryMetadata.filter fun em =>
    em.createdAt ≤ timestamp && (isReplayEntry em.toStoreEntryMetadata
      || em.entryType = .docSnapshot))
  let grounded := pruneToGroundedEntries (planned upTo)
  upTo.filter fun em => em.toStoreEntryMetadata ∈ grounded

/-- `some none` when there was no such document. -/
def getDocumentAtTimestamp (docId : JSString) (allEntryMetadata : List DocEntryMetadata)
    (timestamp : ℤ) : Option (Option (MaterializedDoc am)) :=
  let relevant := relevantEntries allEntryMetadata timestamp
  if relevant.isEmpty then some none
  else
    let byId := metadataById relevant
    let plan := computeDocumentMaterializationPlan docId (planned relevant) false
    let snapshotMeta := plan.snapshotEntryId.bind byId.get?
    match (rt.startDoc byId plan.snapshotEntryId).bind fun doc =>
        (entriesToApply byId plan.entryIdsToApply).foldlM rt.applyOne doc with
    | none => none
    | some doc =>
      let replayEntries := relevant.filter fun em => isReplayEntry em.toStoreEntryMetadata
      some <| some
        { doc := doc
          createdAt := ((replayEntries.head?.or snapshotMeta).map (·.createdAt)).getD timestamp
          lastModified := ((replayEntries.getLast?.or snapshotMeta).map (·.createdAt)).getD timestamp
          decryptionKeyId :=
            ((replayEntries.head?.or snapshotMeta).map (·.decryptionKeyId)).getD "default"
          isDeleted := computeIsDeletedFromMetadata rt.localeCompare (planned relevant) }

/-- A merged document with the entries that it covers. -/
structure RevisionFeedDocState (am : Automerge) where
  doc : am.Doc
  coveredIds : LinkedSet JSString
  createdAt : Option ℤ
  decryptionKeyId : Option JSString

/-- The start of a fold. -/
structure RevisionFold (am : Automerge) where
  doc : Option am.Doc
  createdAt : Option ℤ
  decryptionKeyId : Option JSString

/-- The heads a snapshot stands for are there. -/
def snapshotRootsWithin (snapshotMeta : DocEntryMetadata) (ids : List JSString) : Bool :=
  let roots := snapshotRoots snapshotMeta.toStoreEntryMetadata
  !roots.isEmpty && roots.all fun id => id ∈ ids

def seedRevisionFold (docId : JSString) (cached : Option (RevisionFeedDocState am))
    (entriesOfPrefix docAllMeta : List DocEntryMetadata) : Option (RevisionFold am) :=
  if entriesOfPrefix.isEmpty then some ⟨none, none, none⟩
  else
    let createEntry := entriesOfPrefix.find? fun em => em.entryType = .docCreate
    let prefixIds := entriesOfPrefix.map (·.id)
    match cached.filter fun cached => cached.coveredIds.toList.all fun id => id ∈ prefixIds with
    | some cached =>
      (rt.applyChangeEntries cached.doc (entriesOfPrefix.filter fun em => em.id ∉ cached.coveredIds)).map
        fun doc =>
          { doc := some doc
            createdAt := (createEntry.map (·.createdAt)).or cached.createdAt
            decryptionKeyId := (createEntry.map (·.decryptionKeyId)).or cached.decryptionKeyId }
    | none =>
      let planInput := entriesOfPrefix ++ docAllMeta.filter fun em =>
        em.entryType = .docSnapshot && snapshotRootsWithin em prefixIds
      let byId := metadataById planInput
      let plan := computeDocumentMaterializationPlan docId (planned planInput) false
      ((rt.startDoc byId plan.snapshotEntryId).bind fun doc =>
        rt.applyChangeEntries doc (entriesToApply byId plan.entryIdsToApply)).map fun doc =>
          { doc := some doc
            createdAt := createEntry.map (·.createdAt)
            decryptionKeyId := createEntry.map (·.decryptionKeyId) }

end MaterializationRuntime

end MindooDB
