import MindooDB.Changefeed.Index
import MindooDB.Materialization.Load

/-!
# Sync/Pull — pulling entries and showing them

`core/BaseMindooDB.ts`: `pullChangesFrom` stores the entries that a remote store has, and then
`syncStoreChanges` processes what the local store has and the index does not know of.  A pull that
finds nothing to transfer processes nothing, so what an earlier one stored before it stopped stays
hidden (`pulls_iff`).

A run of pulls loads no document, so each is indexed from its metadata.  What follows the pull of a
directory is left out.
-/

namespace MindooDB

/-- What the local store knows of an entry. -/
structure PulledEntry extends DocEntryMetadata where
  entryVersion : Option ℤ := none
  deriving DecidableEq

def isProvisional (e : PulledEntry) : Bool := e.receivedAt.isNone && e.entryVersion.isSome

def isVersioned (e : PulledEntry) : Bool := e.entryVersion.isSome

/-- `metadataWitnessState`: some entry awaits its witness, and none does but some had one. -/
def metadataWitnessState (entries : List PulledEntry) : Bool × Bool :=
  let awaitingWitness := entries.any isProvisional
  (awaitingWitness, !awaitingWitness && entries.any isVersioned)

def isPulledReplay (e : PulledEntry) : Bool := isReplayEntry e.toStoreEntryMetadata

/-- An entry that a document is indexed for. -/
def isLifecycleEntry (e : PulledEntry) : Bool := isPulledReplay e || e.entryType = .docSnapshot

/-- What the processing asks of the tenant and the language runtime. -/
structure PullRuntime where
  env : Runtime
  /-- The key is there, after what the entries say of their recipients has been taken in. -/
  hasDecryptionKey : List PulledEntry → JSString → Bool

/-- A database with its local store; of the store it has processed so many entries. -/
structure LocalDatabase where
  store : List PulledEntry := []
  processed : ℕ := 0
  index : ChangeIndex := {}

/-! ## Processing -/

namespace LocalDatabase

variable (rt : PullRuntime) (s : LocalDatabase)

/-- The entries of a document. -/
def entriesOf (docId : JSString) : List PulledEntry := s.store.filter fun e => e.docId = docId

def isDeletedFrom (entries : List PulledEntry) : Bool :=
  computeIsDeletedFromMetadata rt.env.localeCompare (entries.map (·.toStoreEntryMetadata))

/-- `Math.max(...entries.map((e) => e.createdAt))`. -/
def maxCreatedAt (entries : List PulledEntry) : ℤ := (entries.map (·.createdAt)).max?.getD 0

/-- A document with the entries of it that are new. -/
def processDocument (coldSync : Bool) (index : ChangeIndex) (docId : JSString)
    (entryMetadataList : List PulledEntry) : ChangeIndex :=
  match entryMetadataList.filter isLifecycleEntry with
  | [] => index
  | representativeEntry :: docLifecycleEntries =>
    if rt.hasDecryptionKey (representativeEntry :: docLifecycleEntries)
        representativeEntry.decryptionKeyId then
      let allDocMetadata := if coldSync then entryMetadataList else s.entriesOf docId
      let mutationEntries := allDocMetadata.filter isPulledReplay
      let entriesForLastModified := if mutationEntries.isEmpty
        then representativeEntry :: docLifecycleEntries else mutationEntries
      let (awaitingWitness, witnessed) := metadataWitnessState allDocMetadata
      index.updateIndex rt.env
        { docId := docId
          changeSeq := 0
          lastModified := maxCreatedAt entriesForLastModified
          isDeleted := isDeletedFrom rt allDocMetadata
          decryptionKeyId := representativeEntry.decryptionKeyId
          accessState := .visible
          awaitingWitness := awaitingWitness
          witnessed := witnessed }
        ((representativeEntry :: docLifecycleEntries).any isPulledReplay)
    else
      let (existingIndex, index) := index.getDocIndexPosition docId
      match existingIndex.bind fun pos => index.index[pos]? with
      | none => index
      | some existing =>
        if existing.accessState = .visible then
          index.updateIndex rt.env
            { docId := docId
              changeSeq := 0
              lastModified := existing.lastModified
              isDeleted := true
              decryptionKeyId := representativeEntry.decryptionKeyId
              accessState := .inaccessible }
            false
        else index

/-- Documents in the order that their first new entries were received in. -/
def compareBatches (a b : JSString × List PulledEntry) : ℤ :=
  let minReceipt (batch : List PulledEntry) : ℤ :=
    (batch.map fun e => e.receiptOrder.getD 9007199254740991).min?.getD 9007199254740991
  let minCreatedAt (batch : List PulledEntry) : ℤ := (batch.map (·.createdAt)).min?.getD 0
  if minReceipt a.2 ≠ minReceipt b.2 then minReceipt a.2 - minReceipt b.2
  else if minCreatedAt a.2 ≠ minCreatedAt b.2 then minCreatedAt a.2 - minCreatedAt b.2
  else rt.env.localeCompare a.1 b.1

/-- The new entries, by document. -/
def newBatches : List (JSString × List PulledEntry) :=
  let newEntryMetadata := s.store.drop s.processed
  sortBy (compareBatches rt) <|
    (LinkedSet.ofList (newEntryMetadata.map (·.docId))).toList.map fun docId =>
      (docId, newEntryMetadata.filter fun e => e.docId = docId)

/-- The new entries, document by document. -/
def processBatches (index : ChangeIndex) (batches : List (JSString × List PulledEntry)) :
    ChangeIndex :=
  batches.foldl (fun index batch =>
    s.processDocument rt (decide (s.processed = 0)) index batch.1 batch.2) index

/-- Process what is new; it may fail after some documents. -/
def syncStoreChanges (failsAfter : Option ℕ) : Bool × LocalDatabase :=
  if s.store.drop s.processed = [] then (true, s)
  else
    match failsAfter with
    | none =>
      (true, { s with
        index := s.processBatches rt s.index (s.newBatches rt)
        processed := s.store.length })
    | some count =>
      (false, { s with index := s.processBatches rt s.index ((s.newBatches rt).take count) })

end LocalDatabase

/-! ## Pulls -/

inductive TransferEnd where
  | completed
  | cancelled
  | failed
  deriving DecidableEq

/-- **What happens in a pull**: which new entries the transfer stores and how it ends, and whether
the signal is aborted or the processing fails. -/
structure PullCall where
  stored : List PulledEntry
  transferred : ℕ
  transferEnd : TransferEnd
  abortedBeforeProcessing : Bool := false
  processingFailsAfter : Option ℕ := none
  abortedAfterProcessing : Bool := false
  counts : transferEnd = .completed → stored.length ≤ transferred

inductive PullResult where
  | completed
  | cancelled
  | failed
  deriving DecidableEq

namespace LocalDatabase

variable (rt : PullRuntime) (s : LocalDatabase)

/-- **One pull**: transfer, then processing. -/
def pullChangesFrom (call : PullCall) : PullResult × LocalDatabase :=
  let s := { s with store := s.store ++ call.stored }
  match call.transferEnd with
  | .failed => (.failed, s)
  | .cancelled => (.cancelled, s)
  | .completed =>
    if call.transferred = 0 then (.completed, s)
    else if call.abortedBeforeProcessing then (.cancelled, s)
    else
      match s.syncStoreChanges rt call.processingFailsAfter with
      | (false, s) => (.failed, s)
      | (true, s) => (if call.abortedAfterProcessing then .cancelled else .completed, s)

/-- The database after some pulls. -/
def pulls (calls : List PullCall) : LocalDatabase :=
  calls.foldl (fun s call => (s.pullChangesFrom rt call).2) s

end LocalDatabase

end MindooDB
