import MindooDB.Lib.LinkedMap
import MindooDB.Store.ScanUtils

/-!
# Store/InMemory — the in-memory content-addressed store

`core/appendonlystores/InMemoryContentAddressedStore.ts`.  Metadata is indexed by entry id, payload
bytes by content hash; a reverse index per document, a reference count per hash and a cache of the
sorted metadata are kept alongside.  No method awaits between reading and writing, so each call is
one step (`StoreCall`).

`Array.prototype.sort` compares ids with `localeCompare`, whose collation is a parameter here.
-/

namespace MindooDB

/-- **The fields of `InMemoryContentAddressedStore`.** -/
structure InMemoryStore where
  entries : LinkedMap JSString StoreEntryMetadata := ∅
  contentStore : LinkedMap JSString (List UInt8) := ∅
  docIndex : LinkedMap JSString (LinkedSet JSString) := ∅
  sortedEntriesCache : Option (List StoreEntryMetadata) := none
  nextReceiptOrder : ℤ := 1
  storeEpoch : JSString
  contentRefCount : LinkedMap JSString ℤ := ∅
  deriving DecidableEq

namespace InMemoryStore

/-! ## Writing -/

/-- The loop body of `putEntries`. -/
def putEntry (s : InMemoryStore) (entry : StoreEntry) : InMemoryStore :=
  if s.entries.has entry.id then s
  else
    let metadata := entry.toStoreEntryMetadata.withReceiptOrder s.nextReceiptOrder
    { s with
      nextReceiptOrder := s.nextReceiptOrder + 1
      entries := s.entries.set entry.id metadata
      contentStore :=
        if s.contentStore.has entry.contentHash then s.contentStore
        else s.contentStore.set entry.contentHash entry.encryptedData
      docIndex := s.docIndex.set entry.docId (((s.docIndex.get? entry.docId).getD ∅).add entry.id)
      contentRefCount := s.contentRefCount.set entry.contentHash
        (orFalsy (s.contentRefCount.get? entry.contentHash) 0 + 1) }

def putEntries (s : InMemoryStore) (entries : List StoreEntry) : InMemoryStore :=
  { entries.foldl putEntry s with sortedEntriesCache := none }

/-- The loop body of `applyWitnessReceipts`; the flag is `mutated`. -/
def applyWitnessReceipt (s : InMemoryStore × Bool) (receipt : StoreEntryMetadata) :
    InMemoryStore × Bool :=
  if receipt.receivedAt = none then s
  else
    match s.1.entries.get? receipt.id with
    | none => s
    | some existing =>
      if existing.sameWitness receipt then s
      else
        ({ s.1 with
            entries := s.1.entries.set receipt.id
              (existing.withWitness receipt s.1.nextReceiptOrder)
            nextReceiptOrder := s.1.nextReceiptOrder + 1 }, true)

def applyWitnessReceipts (s : InMemoryStore) (receipts : List StoreEntryMetadata) :
    InMemoryStore :=
  let (s', mutated) := receipts.foldl applyWitnessReceipt (s, false)
  if mutated then { s' with sortedEntriesCache := none } else s'

/-- The loop body of `purgeDocHistory`: drop one entry, and its payload with the last reference. -/
def purgeEntry (s : InMemoryStore) (id : JSString) : InMemoryStore :=
  match s.entries.get? id with
  | none => s
  | some metadata =>
    let newCount := orFalsy (s.contentRefCount.get? metadata.contentHash) 1 - 1
    if newCount ≤ 0 then
      { s with
        contentStore := s.contentStore.delete metadata.contentHash
        contentRefCount := s.contentRefCount.delete metadata.contentHash
        entries := s.entries.delete id }
    else
      { s with
        contentRefCount := s.contentRefCount.set metadata.contentHash newCount
        entries := s.entries.delete id }

/-- All entries of a document go. -/
def purgeDocHistory (s : InMemoryStore) (docId : JSString) : InMemoryStore :=
  match s.docIndex.get? docId with
  | none => s
  | some docEntryIds =>
    if docEntryIds.size = 0 then s
    else
      let s' := docEntryIds.toList.foldl purgeEntry s
      { s' with docIndex := s'.docIndex.delete docId, sortedEntriesCache := none }

/-- `epoch` is the value `uuidv7()` yields. -/
def clearAllLocalData (_ : InMemoryStore) (epoch : JSString) : InMemoryStore :=
  { storeEpoch := epoch }

/-! ## Reading -/

def getEntries (s : InMemoryStore) (ids : List JSString) : List StoreEntry :=
  ids.filterMap fun id =>
    match s.entries.get? id with
    | none => none
    | some metadata =>
      match s.contentStore.get? metadata.contentHash with
      | none => none
      | some encryptedData => some ⟨metadata, encryptedData⟩

def getStoreHead (s : InMemoryStore) : StoreHead := ⟨s.storeEpoch, s.nextReceiptOrder - 1⟩

/-- The metadata of one document, through `docIndex`. -/
def docEntries (s : InMemoryStore) (docId : JSString) : List StoreEntryMetadata :=
  match s.docIndex.get? docId with
  | none => []
  | some ids => ids.toList.filterMap s.entries.get?

section Scan

variable (localeCompare : JSString → JSString → ℤ)

/-- The comparator of `getSortedEntries`. -/
def compareSorted (a b : StoreEntryMetadata) : ℤ :=
  if a.order = b.order then localeCompare a.id b.id else a.order - b.order

/-- `getSortedEntries`: the cached array, sorted and stored when it was invalidated. -/
def getSortedEntries (s : InMemoryStore) : InMemoryStore × List StoreEntryMetadata :=
  match s.sortedEntriesCache with
  | some sorted => (s, sorted)
  | none =>
    let sorted := sortBy (compareSorted localeCompare) s.entries.values
    ({ s with sortedEntriesCache := some sorted }, sorted)

/-- Whether the binary search goes right: `m` sorts at or before the cursor. -/
def atOrBeforeCursor (cursor : StoreScanCursor) (m : StoreEntryMetadata) : Bool :=
  m.order < cursor.receiptOrder || (m.order = cursor.receiptOrder && m.id ≤ cursor.id)

/-- The first position behind a cursor. -/
def binarySearchAfterCursor (sorted : List StoreEntryMetadata) (cursor : StoreScanCursor) : ℕ :=
  ScanFeed.bisect (atOrBeforeCursor cursor) sorted

/-- The store's own copy of the filter test. -/
def matchesScanFilters (m : StoreEntryMetadata) (filters : Option StoreScanFilters) : Bool :=
  metadataMatchesScanFilters m filters

/-- Where the forward pass of `scanEntriesSince` starts. -/
def startIndex (sorted : List StoreEntryMetadata) (cursor : Option StoreScanCursor) : ℕ :=
  match cursor with
  | none => 0
  | some c => binarySearchAfterCursor sorted c

/-- The full-store path of `scanEntriesSince`: binary search, one forward pass, one look-ahead. -/
def scanSorted (sorted : List StoreEntryMetadata) (cursor : Option StoreScanCursor) (limit : ℕ)
    (filters : Option StoreScanFilters) : StoreScanResult :=
  let startIdx := startIndex sorted cursor
  let (page, rest) :=
    ScanFeed.fillPage (fun m => matchesScanFilters m filters) limit (sorted.drop startIdx)
  ⟨page, cursorAfterPage page cursor, rest.any fun m => matchesScanFilters m filters⟩

/-- The `docId` that sends a scan down the doc-scoped path. -/
def scopeOf (filters : Option StoreScanFilters) : Option JSString :=
  (filters.bind StoreScanFilters.docId).filter fun d => !d.isEmpty

/-- A page of what came after a cursor. -/
def scanEntriesSince (s : InMemoryStore) (cursor : Option StoreScanCursor) (limit : ℕ)
    (filters : Option StoreScanFilters) : InMemoryStore × StoreScanResult :=
  match scopeOf filters with
  | some docId => (s, scanDocScopedEntries (s.docEntries docId) cursor limit filters)
  | none =>
    let (s', sorted) := s.getSortedEntries localeCompare
    (s', scanSorted sorted cursor limit filters)

end Scan

/-! ## Runs -/

/-- A call of the store's API. -/
inductive StoreCall where
  | putEntries (entries : List StoreEntry)
  | applyWitnessReceipts (receipts : List StoreEntryMetadata)
  | purgeDocHistory (docId : JSString)
  | clearAllLocalData (epoch : JSString)
  | scanEntriesSince (cursor : Option StoreScanCursor) (limit : ℕ)
      (filters : Option StoreScanFilters)

/-- The state a call leaves behind. -/
def call (localeCompare : JSString → JSString → ℤ) (s : InMemoryStore) : StoreCall → InMemoryStore
  | .putEntries entries => s.putEntries entries
  | .applyWitnessReceipts receipts => s.applyWitnessReceipts receipts
  | .purgeDocHistory docId => s.purgeDocHistory docId
  | .clearAllLocalData epoch => s.clearAllLocalData epoch
  | .scanEntriesSince cursor limit filters => (s.scanEntriesSince localeCompare cursor limit filters).1

/-- **The state a sequence of calls leaves behind**, from a new store. -/
def run (localeCompare : JSString → JSString → ℤ) (epoch : JSString) (calls : List StoreCall) :
    InMemoryStore :=
  calls.foldl (call localeCompare) { storeEpoch := epoch }

end InMemoryStore

end MindooDB
