import MindooDB.Lib.JSString

/-!
# Store/Entry — store entries, cursors and scan filters

The records of `core/types.ts` and `core/appendonlystores/types.ts` that the stores and the planner
read.  Fields no modelled function looks at (signatures, attachment references, sizes) travel with
an entry unchanged and are left out.
-/

namespace MindooDB

/-- The kinds of entry a store holds. -/
inductive StoreEntryType where
  | docCreate
  | docChange
  | docSnapshot
  | docDelete
  | docUndelete
  | pendingAttachmentUpload
  | attachmentChunk
  deriving DecidableEq, Repr

/-- What a store knows of an entry besides its payload. -/
structure StoreEntryMetadata where
  entryType : StoreEntryType
  id : JSString
  contentHash : JSString
  docId : JSString
  dependencyIds : List JSString
  snapshotHeadEntryIds : Option (List JSString)
  createdAt : ℤ
  receiptOrder : Option ℤ
  receivedAt : Option ℤ
  receivedByPublicKey : Option JSString
  receivedDateSignature : Option (List UInt8)
  receiptScheme : Option JSString
  deriving DecidableEq

/-- An entry with its encrypted payload. -/
structure StoreEntry extends StoreEntryMetadata where
  encryptedData : List UInt8
  deriving DecidableEq

/-- A position in a store's scan feed. -/
structure StoreScanCursor where
  receiptOrder : ℤ
  id : JSString
  deriving DecidableEq

/-- Optional filters of a scan.  An absent field and a `null` one mean the same. -/
structure StoreScanFilters where
  docId : Option JSString := none
  entryTypes : Option (List StoreEntryType) := none
  creationDateFrom : Option ℤ := none
  creationDateUntil : Option ℤ := none
  deriving DecidableEq

/-- One page of a scan. -/
structure StoreScanResult where
  entries : List StoreEntryMetadata
  nextCursor : Option StoreScanCursor
  hasMore : Bool
  deriving DecidableEq

/-- `epoch` names the cursor lineage, `maxReceiptOrder` the highest order number handed out. -/
structure StoreHead where
  epoch : JSString
  maxReceiptOrder : ℤ
  deriving DecidableEq

/-- Positions of a scan feed: the receipt order first, the id to break ties. -/
abbrev ScanPos := ℤ ×ₗ JSString

/-- `receiptOrder ?? 0`. -/
def StoreEntryMetadata.order (metadata : StoreEntryMetadata) : ℤ := metadata.receiptOrder.getD 0

/-- Where an entry stands in the feed. -/
def StoreEntryMetadata.pos (metadata : StoreEntryMetadata) : ScanPos := toLex (metadata.order, metadata.id)

/-- Where a cursor stands in the feed. -/
def StoreScanCursor.pos (cursor : StoreScanCursor) : ScanPos :=
  toLex (cursor.receiptOrder, cursor.id)

/-- The cursor pointing at an entry. -/
def StoreEntryMetadata.cursor (metadata : StoreEntryMetadata) : StoreScanCursor :=
  ⟨metadata.order, metadata.id⟩

/-- An entry nobody has numbered or witnessed yet. -/
def StoreEntryMetadata.unwitnessed (entryType : StoreEntryType) (id docId contentHash : JSString)
    (dependencyIds : List JSString) (createdAt : ℤ) : StoreEntryMetadata where
  entryType := entryType
  id := id
  contentHash := contentHash
  docId := docId
  dependencyIds := dependencyIds
  snapshotHeadEntryIds := none
  createdAt := createdAt
  receiptOrder := none
  receivedAt := none
  receivedByPublicKey := none
  receivedDateSignature := none
  receiptScheme := none

@[simp] theorem StoreEntryMetadata.pos_cursor (metadata : StoreEntryMetadata) :
    metadata.cursor.pos = metadata.pos := rfl

/-- `{ receiptOrder: _, ...rest }` restamped with a fresh order number. -/
def StoreEntryMetadata.withReceiptOrder (metadata : StoreEntryMetadata) (n : ℤ) : StoreEntryMetadata :=
  { metadata with receiptOrder := some n }

/-- Whether a receipt is the one an entry already carries. -/
def StoreEntryMetadata.sameWitness (existing receipt : StoreEntryMetadata) : Bool :=
  existing.receivedAt = receipt.receivedAt &&
    existing.receivedByPublicKey = receipt.receivedByPublicKey

/-- The entry a witness receipt leaves behind: the witness fields of the receipt, everything else of
the entry, a fresh order number. -/
def StoreEntryMetadata.withWitness (existing receipt : StoreEntryMetadata) (n : ℤ) :
    StoreEntryMetadata :=
  { existing with
    receivedAt := receipt.receivedAt
    receivedByPublicKey := receipt.receivedByPublicKey
    receivedDateSignature := receipt.receivedDateSignature
    receiptScheme := receipt.receiptScheme
    receiptOrder := some n }

section Stamps

variable (metadata receipt : StoreEntryMetadata) (n : ℤ)

@[simp] theorem StoreEntryMetadata.id_withReceiptOrder : (metadata.withReceiptOrder n).id = metadata.id := rfl

@[simp] theorem StoreEntryMetadata.docId_withReceiptOrder :
    (metadata.withReceiptOrder n).docId = metadata.docId := rfl

@[simp] theorem StoreEntryMetadata.contentHash_withReceiptOrder :
    (metadata.withReceiptOrder n).contentHash = metadata.contentHash := rfl

@[simp] theorem StoreEntryMetadata.receiptOrder_withReceiptOrder :
    (metadata.withReceiptOrder n).receiptOrder = some n := rfl

@[simp] theorem StoreEntryMetadata.order_withReceiptOrder :
    (metadata.withReceiptOrder n).order = n := rfl

@[simp] theorem StoreEntryMetadata.id_withWitness :
    (metadata.withWitness receipt n).id = metadata.id := rfl

@[simp] theorem StoreEntryMetadata.docId_withWitness :
    (metadata.withWitness receipt n).docId = metadata.docId := rfl

@[simp] theorem StoreEntryMetadata.contentHash_withWitness :
    (metadata.withWitness receipt n).contentHash = metadata.contentHash := rfl

@[simp] theorem StoreEntryMetadata.receiptOrder_withWitness :
    (metadata.withWitness receipt n).receiptOrder = some n := rfl

@[simp] theorem StoreEntryMetadata.order_withWitness :
    (metadata.withWitness receipt n).order = n := rfl

end Stamps

end MindooDB
