import MindooDB.Materialization.Load
import MindooDB.Signing.EntrySignature

/-!
# Server/Entry — entries with all that travels with them, and a store of them

The whole of `StoreEntryMetadata` of `core/types.ts`, the fields that its author signs, and what a
server reads and writes of its docs store: metadata by id, payload bytes by content hash.
-/

namespace MindooDB

/-- The name of a type. -/
def StoreEntryType.text : StoreEntryType → JSString
  | .docCreate => "doc_create"
  | .docChange => "doc_change"
  | .docSnapshot => "doc_snapshot"
  | .docDelete => "doc_delete"
  | .docUndelete => "doc_undelete"
  | .pendingAttachmentUpload => "pending_attachment_upload"
  | .attachmentChunk => "attachment_chunk"

/-- **All fields of an entry** but its payload. -/
structure SyncEntryMetadata extends DocEntryMetadata where
  attachmentId : Option JSString := none
  attachmentIds : Option (List JSString) := none
  attachmentRefs : Option (List StoreEntryAttachmentRef) := none
  uploadStartedAt : Option ℤ := none
  signature : List UInt8
  metadataSignature : Option (List UInt8) := none
  provenance : Option (EntryProvenance EntrySignatureFields) := none
  recipients : Option EntryRecipients := none
  originalSize : ℤ
  encryptedSize : ℤ
  entryVersion : Option ℤ := none

structure SyncEntry extends SyncEntryMetadata where
  encryptedData : List UInt8

/-- The fields that an author signs. -/
def entrySignatureFieldsFromEntry (entry : SyncEntryMetadata) : EntrySignatureFields :=
  { entryType := entry.entryType.text
    id := entry.id
    docId := entry.docId
    decryptionKeyId := entry.decryptionKeyId
    createdAt := entry.createdAt
    dependencyIds := entry.dependencyIds
    contentHash := entry.contentHash
    createdByPublicKey := entry.createdByPublicKey
    attachmentRefs := entry.attachmentRefs.filter fun refs => !refs.isEmpty
    provenance := entry.provenance
    recipients := entry.recipients }

/-- `{ receiptOrder: _, ...rest }` restamped with a fresh order number. -/
def SyncEntryMetadata.withReceiptOrder (metadata : SyncEntryMetadata) (n : ℤ) : SyncEntryMetadata :=
  { metadata with receiptOrder := some n }

/-! ## The docs store -/

/-- What is read of the docs store of a server. -/
structure SyncStore where
  entries : LinkedMap JSString SyncEntryMetadata := ∅
  contentStore : LinkedMap JSString (List UInt8) := ∅
  nextReceiptOrder : ℤ := 1

namespace SyncStore

/-- The loop body of `putEntries`. -/
def putEntry (s : SyncStore) (entry : SyncEntry) : SyncStore :=
  if s.entries.has entry.id then s
  else
    { entries := s.entries.set entry.id
        (entry.toSyncEntryMetadata.withReceiptOrder s.nextReceiptOrder)
      contentStore :=
        if s.contentStore.has entry.contentHash then s.contentStore
        else s.contentStore.set entry.contentHash entry.encryptedData
      nextReceiptOrder := s.nextReceiptOrder + 1 }

def putEntries (s : SyncStore) (entries : List SyncEntry) : SyncStore := entries.foldl putEntry s

def hasEntries (s : SyncStore) (ids : List JSString) : List JSString := ids.filter s.entries.has

def getEntryMetadata (s : SyncStore) (id : JSString) : Option SyncEntryMetadata := s.entries.get? id

def getEntries (s : SyncStore) (ids : List JSString) : List SyncEntry :=
  ids.filterMap fun id => do
    let metadata ← s.entries.get? id
    let encryptedData ← s.contentStore.get? metadata.contentHash
    some ⟨metadata, encryptedData⟩

/-- **The store holds an entry**: it gives it out by its id. -/
def Holds (s : SyncStore) (entry : SyncEntry) : Prop :=
  s.entries.get? entry.id = some entry.toSyncEntryMetadata
    ∧ s.contentStore.get? entry.contentHash = some entry.encryptedData

end SyncStore

end MindooDB
