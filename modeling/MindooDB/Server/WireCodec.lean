import MindooDB.Server.WireFormat

/-!
# Server/WireCodec — an entry on the wire

`core/appendonlystores/network/entryWireCodec.ts` and `binaryEntryFraming.ts`.  The metadata of an
entry travel as JSON with their binary fields in base64; the payload travels in base64 next to them,
or as the bytes it is in a frame of a binary message.

Four fields of the metadata are serialized by neither (`Travels`), so an entry that has one of them
arrives without it; all that an author signs arrives (`transfer_spec`).
-/

namespace MindooDB

open ByteFormat JsonFormat List Option

/-! ## Serializing -/

structure SerializedEntryMetadata where
  entryType : StoreEntryType
  id : JSString
  contentHash : JSString
  docId : JSString
  dependencyIds : List JSString
  createdAt : ℤ
  receiptOrder : Option ℤ
  createdByPublicKey : JSString
  decryptionKeyId : JSString
  snapshotHeadHashes : Option (List JSString)
  snapshotHeadEntryIds : Option (List JSString)
  signature : JSString
  metadataSignature : Option JSString
  originalSize : ℤ
  encryptedSize : ℤ
  receivedAt : Option ℤ
  receivedByPublicKey : Option JSString
  receivedDateSignature : Option JSString
  attachmentRefs : Option (List StoreEntryAttachmentRef)
  provenance : Option WireFormat.Provenance
  recipients : Option EntryRecipients
  entryVersion : Option ℤ

structure SerializedEntry extends SerializedEntryMetadata where
  encryptedData : JSString

def bytesToBase64 (bytes : List UInt8) : JSString := Base64.btoa bytes

def serializeEntryMetadata (metadata : SyncEntryMetadata) : SerializedEntryMetadata where
  entryType := metadata.entryType
  id := metadata.id
  contentHash := metadata.contentHash
  docId := metadata.docId
  dependencyIds := metadata.dependencyIds
  createdAt := metadata.createdAt
  receiptOrder := metadata.receiptOrder
  createdByPublicKey := metadata.createdByPublicKey
  decryptionKeyId := metadata.decryptionKeyId
  snapshotHeadHashes := metadata.snapshotHeadHashes
  snapshotHeadEntryIds := metadata.snapshotHeadEntryIds
  signature := bytesToBase64 metadata.signature
  metadataSignature := metadata.metadataSignature.map bytesToBase64
  originalSize := metadata.originalSize
  encryptedSize := metadata.encryptedSize
  receivedAt := metadata.receivedAt
  receivedByPublicKey := metadata.receivedByPublicKey
  receivedDateSignature := metadata.receivedDateSignature.map bytesToBase64
  attachmentRefs := metadata.attachmentRefs
  provenance := metadata.provenance
  recipients := metadata.recipients
  entryVersion := metadata.entryVersion

/-- `s ? base64ToBytes(s) : undefined`. -/
def signatureBytes (s : Option JSString) : Option (Option (List UInt8)) :=
  match s with
  | none => some none
  | some s => if s.isEmpty then some none else (base64ToBytes s).map some

/-- `none` is an exception of `atob`. -/
def deserializeEntryMetadata (serialized : SerializedEntryMetadata) : Option SyncEntryMetadata := do
  let signature ← base64ToBytes serialized.signature
  let metadataSignature ← signatureBytes serialized.metadataSignature
  let receivedDateSignature ← signatureBytes serialized.receivedDateSignature
  some
    { entryType := serialized.entryType
      id := serialized.id
      contentHash := serialized.contentHash
      docId := serialized.docId
      dependencyIds := serialized.dependencyIds
      createdAt := serialized.createdAt
      receiptOrder := serialized.receiptOrder
      createdByPublicKey := serialized.createdByPublicKey
      decryptionKeyId := serialized.decryptionKeyId
      snapshotHeadHashes := serialized.snapshotHeadHashes
      snapshotHeadEntryIds := serialized.snapshotHeadEntryIds
      signature
      metadataSignature
      originalSize := serialized.originalSize
      encryptedSize := serialized.encryptedSize
      receivedAt := serialized.receivedAt
      receivedByPublicKey := serialized.receivedByPublicKey
      receivedDateSignature
      receiptScheme := none
      attachmentRefs := serialized.attachmentRefs
      provenance := serialized.provenance
      recipients := serialized.recipients
      entryVersion := serialized.entryVersion }

/-- An entry as JSON. -/
def serializeStoreEntry (entry : SyncEntry) : SerializedEntry :=
  { serializeEntryMetadata entry.toSyncEntryMetadata with
    encryptedData := bytesToBase64 entry.encryptedData }

/-- The entry that JSON gives again. -/
def deserializeStoreEntry (serialized : SerializedEntry) : Option SyncEntry := do
  let metadata ← deserializeEntryMetadata serialized.toSerializedEntryMetadata
  let encryptedData ← base64ToBytes serialized.encryptedData
  some { metadata with encryptedData }

/-! ## JSON -/

namespace WireFormat

def entryType : JsonFormat StoreEntryType :=
  string.iso StoreEntryType.text
    (fun text => [StoreEntryType.docCreate, .docChange, .docSnapshot, .docDelete, .docUndelete,
      .pendingAttachmentUpload, .attachmentChunk].find? fun entryType => entryType.text = text)
    fun entryType => by cases entryType <;> decide +kernel

/-- The fields of serialized metadata, in their order. -/
def metadataMembers (s : SerializedEntryMetadata) : List (JSString × Option JsonTree) :=
  [("entryType", some (entryType.write s.entryType)),
    ("id", some (string.write s.id)),
    ("contentHash", some (string.write s.contentHash)),
    ("docId", some (string.write s.docId)),
    ("dependencyIds", some ((list .string).write s.dependencyIds)),
    ("createdAt", some (integer.write s.createdAt)),
    ("receiptOrder", s.receiptOrder.map integer.write),
    ("createdByPublicKey", some (string.write s.createdByPublicKey)),
    ("decryptionKeyId", some (string.write s.decryptionKeyId)),
    ("snapshotHeadHashes", s.snapshotHeadHashes.map (list .string).write),
    ("snapshotHeadEntryIds", s.snapshotHeadEntryIds.map (list .string).write),
    ("signature", some (string.write s.signature)),
    ("metadataSignature", s.metadataSignature.map string.write),
    ("originalSize", some (integer.write s.originalSize)),
    ("encryptedSize", some (integer.write s.encryptedSize)),
    ("receivedAt", s.receivedAt.map integer.write),
    ("receivedByPublicKey", s.receivedByPublicKey.map string.write),
    ("receivedDateSignature", s.receivedDateSignature.map string.write),
    ("attachmentRefs", s.attachmentRefs.map (list attachmentRef).write),
    ("provenance", s.provenance.map provenance.write),
    ("recipients", s.recipients.map recipients.write),
    ("entryVersion", s.entryVersion.map integer.write)]

def readMetadata (data : List (JSString × JsonTree)) : Option SerializedEntryMetadata := do
  let entryType ← required entryType data "entryType"
  let id ← required .string data "id"
  let contentHash ← required .string data "contentHash"
  let docId ← required .string data "docId"
  let dependencyIds ← required (.list .string) data "dependencyIds"
  let createdAt ← required .integer data "createdAt"
  let receiptOrder ← optional .integer data "receiptOrder"
  let createdByPublicKey ← required .string data "createdByPublicKey"
  let decryptionKeyId ← required .string data "decryptionKeyId"
  let snapshotHeadHashes ← optional (.list .string) data "snapshotHeadHashes"
  let snapshotHeadEntryIds ← optional (.list .string) data "snapshotHeadEntryIds"
  let signature ← required .string data "signature"
  let metadataSignature ← optional .string data "metadataSignature"
  let originalSize ← required .integer data "originalSize"
  let encryptedSize ← required .integer data "encryptedSize"
  let receivedAt ← optional .integer data "receivedAt"
  let receivedByPublicKey ← optional .string data "receivedByPublicKey"
  let receivedDateSignature ← optional .string data "receivedDateSignature"
  let attachmentRefs ← optional (.list attachmentRef) data "attachmentRefs"
  let provenance ← optional provenance data "provenance"
  let recipients ← optional recipients data "recipients"
  let entryVersion ← optional .integer data "entryVersion"
  some
    { entryType, id, contentHash, docId, dependencyIds, createdAt, receiptOrder, createdByPublicKey,
      decryptionKeyId, snapshotHeadHashes, snapshotHeadEntryIds, signature, metadataSignature,
      originalSize, encryptedSize, receivedAt, receivedByPublicKey, receivedDateSignature,
      attachmentRefs, provenance, recipients, entryVersion }

theorem readMetadata_eq (s : SerializedEntryMetadata) (data : List (JSString × JsonTree))
    (h : ∀ f ∈ metadataMembers s, JsonTree.field data f.1 = f.2) : readMetadata data = some s := by
  simp only [metadataMembers, forall_mem_cons] at h
  obtain ⟨htype, hid, hhash, hdoc, hdeps, hcreated, horder, hauthor, hkey, hheads, hheadIds,
    hsignature, hmetadataSignature, hsize, hencrypted, hreceived, hwitness, hreceipt, hrefs,
    hprovenance, hrecipients, hversion, -⟩ := h
  simp only [readMetadata, required_eq htype, required_eq hid, required_eq hhash, required_eq hdoc,
    required_eq hdeps, required_eq hcreated, optional_eq horder, required_eq hauthor, required_eq hkey,
    optional_eq hheads, optional_eq hheadIds, required_eq hsignature, optional_eq hmetadataSignature,
    required_eq hsize, required_eq hencrypted, optional_eq hreceived, optional_eq hwitness,
    optional_eq hreceipt, optional_eq hrefs, optional_eq hprovenance, optional_eq hrecipients,
    optional_eq hversion, bind_eq_bind, bind_some]

def metadata : JsonFormat SerializedEntryMetadata :=
  .object metadataMembers readMetadata
    (fun s => by
      simp only [metadataMembers, map_cons, map_nil]
      decide +kernel)
    readMetadata_eq

/-- The payload follows the metadata. -/
def entry : JsonFormat SerializedEntry :=
  .object
    (fun s => metadataMembers s.toSerializedEntryMetadata
      ++ [(("encryptedData" : JSString), some (string.write s.encryptedData))])
    (fun data => do
      let metadata ← readMetadata data
      let encryptedData ← required .string data "encryptedData"
      some { metadata with encryptedData })
    (fun s => by
      simp only [metadataMembers, cons_append, nil_append, map_cons, map_nil]
      decide +kernel)
    fun s data h => by
      obtain ⟨hmetadata, hpayload⟩ := forall_mem_append.mp h
      simp only [forall_mem_cons] at hpayload
      simp only [readMetadata_eq _ data hmetadata, required_eq hpayload.1, bind_eq_bind,
        bind_some]

end WireFormat

/-! ## Frames -/

structure BinaryEntryFrame where
  metadata : JsonTree
  payload : List UInt8

structure BinaryEntryMessage where
  header : JsonTree
  entries : List BinaryEntryFrame

/-- `textEncoder.encode(JSON.stringify(value))`. -/
def jsonBytes (value : JsonTree) : List UInt8 := TextEncoding.encode value.stringify

def encodeFrame (frame : BinaryEntryFrame) : List UInt8 :=
  pushLengthPrefixed (jsonBytes frame.metadata) ++ pushLengthPrefixed frame.payload

def encodeBinaryEntryMessage (message : BinaryEntryMessage) : List UInt8 :=
  pushLengthPrefixed (jsonBytes message.header) ++ message.entries.flatMap encodeFrame

/-- A length and as many bytes; `none` for a message that ends before. -/
def readChunk (data : List UInt8) : Option (List UInt8 × List UInt8) :=
  if data.length < 4 then none
  else
    let length := ofBigEndian (data.take 4)
    let rest := data.drop 4
    if rest.length < length then none else some (rest.take length, rest.drop length)

/-- A JSON text in bytes; `none` also for bytes that are no UTF-8, where the decoder puts replacement
characters. -/
def parseBytes (bytes : List UInt8) : Option JsonTree := (TextEncoding.decode bytes).bind JsonTree.parse

/-- The loop of `decodeBinaryEntryMessage`. -/
def readFrames : ℕ → List UInt8 → Option (List BinaryEntryFrame)
  | _, [] => some []
  | 0, _ => none
  | fuel + 1, data =>
    (readChunk data).bind fun metaChunk =>
    (readChunk metaChunk.2).bind fun payload =>
    (parseBytes metaChunk.1).bind fun metadata =>
    (readFrames fuel payload.2).map fun entries => ⟨metadata, payload.1⟩ :: entries

def decodeBinaryEntryMessage (data : List UInt8) : Option BinaryEntryMessage :=
  (readChunk data).bind fun headerChunk =>
  (parseBytes headerChunk.1).bind fun header =>
  (readFrames headerChunk.2.length headerChunk.2).map fun entries => ⟨header, entries⟩

/-- **The lengths of a message fit their four bytes.** -/
structure BinaryEntryMessage.Fits (message : BinaryEntryMessage) : Prop where
  header : (jsonBytes message.header).length < 2 ^ 32
  metadata : ∀ frame ∈ message.entries, (jsonBytes frame.metadata).length < 2 ^ 32
  payload : ∀ frame ∈ message.entries, frame.payload.length < 2 ^ 32

theorem readChunk_append {bytes : List UInt8} (h : bytes.length < 2 ^ 32) (rest : List UInt8) :
    readChunk (pushLengthPrefixed bytes ++ rest) = some (bytes, rest) := by
  have hwidth := length_bigEndian 4 bytes.length
  have hlength : ofBigEndian (bigEndian 4 bytes.length) = bytes.length := by
    rw [ofBigEndian_bigEndian, Nat.mod_eq_of_lt (by omega)]
  rw [readChunk, pushLengthPrefixed, append_assoc, if_neg (by simp [hwidth])]
  simp only [take_left' hwidth, drop_left' hwidth, hlength]
  rw [if_neg (by simp), take_left, drop_left]

theorem parseBytes_jsonBytes (value : JsonTree) : parseBytes (jsonBytes value) = some value := by
  rw [parseBytes, jsonBytes, TextEncoding.decode_encode (JsonTree.isWellFormed_stringify value),
    bind_some, JsonTree.parse_stringify]

theorem length_encodeFrame_pos (frame : BinaryEntryFrame) : 0 < (encodeFrame frame).length := by
  simp only [encodeFrame, pushLengthPrefixed, length_append, length_bigEndian]
  omega

/-- A frame that is there is read first. -/
theorem readFrames_cons {frame : BinaryEntryFrame}
    (hmetadata : (jsonBytes frame.metadata).length < 2 ^ 32) (hpayload : frame.payload.length < 2 ^ 32)
    (fuel : ℕ) (rest : List UInt8) :
    readFrames (fuel + 1) (encodeFrame frame ++ rest)
      = (readFrames fuel rest).map fun entries => frame :: entries := by
  obtain ⟨byte, bytes, heq⟩ := exists_cons_of_length_pos (length_encodeFrame_pos frame)
  have hchunks : readChunk (byte :: (bytes ++ rest))
      = some (jsonBytes frame.metadata, pushLengthPrefixed frame.payload ++ rest) := by
    rw [← cons_append, ← heq, encodeFrame, append_assoc, readChunk_append hmetadata]
  rw [heq, cons_append, readFrames]
  · rw [hchunks, bind_some, readChunk_append hpayload, bind_some, parseBytes_jsonBytes,
      bind_some]
  · exact cons_ne_nil _ _

theorem readFrames_encode {entries : List BinaryEntryFrame}
    (hmetadata : ∀ frame ∈ entries, (jsonBytes frame.metadata).length < 2 ^ 32)
    (hpayload : ∀ frame ∈ entries, frame.payload.length < 2 ^ 32) {fuel : ℕ}
    (hfuel : (entries.flatMap encodeFrame).length ≤ fuel) :
    readFrames fuel (entries.flatMap encodeFrame) = some entries := by
  induction entries generalizing fuel with
  | nil => cases fuel <;> rfl
  | cons frame entries ih =>
    obtain ⟨hmeta, hmetas⟩ := forall_mem_cons.mp hmetadata
    obtain ⟨hpay, hpays⟩ := forall_mem_cons.mp hpayload
    rw [flatMap_cons, length_append] at hfuel
    have hpos := length_encodeFrame_pos frame
    cases fuel with
    | zero => exact absurd (hpos.trans_le ((Nat.le_add_right _ _).trans hfuel)) (Nat.lt_irrefl 0)
    | succ fuel =>
      have hrest := @ih hmetas hpays fuel
        (Nat.le_of_lt_succ ((Nat.lt_add_of_pos_left hpos).trans_le hfuel))
      rw [flatMap_cons, readFrames_cons hmeta hpay, hrest, map_some]

/-- **A message that fits is decoded to what was encoded.** -/
theorem decode_encode {message : BinaryEntryMessage} (h : message.Fits) :
    decodeBinaryEntryMessage (encodeBinaryEntryMessage message) = some message := by
  rw [decodeBinaryEntryMessage, encodeBinaryEntryMessage, readChunk_append h.header, bind_some,
    parseBytes_jsonBytes, bind_some,
    readFrames_encode h.metadata h.payload (Nat.le_refl _), map_some]

theorem length_of_readChunk {data bytes rest : List UInt8} (h : readChunk data = some (bytes, rest)) :
    bytes.length < 2 ^ 32 := by
  rw [readChunk] at h
  simp only at h
  split at h
  · cases h
  · split at h
    · cases h
    · rename_i hfour _
      obtain ⟨rfl, -⟩ := Prod.mk.inj (some.inj h)
      have hlt := ofBigEndian_lt (data.take 4)
      rw [length_take, Nat.min_eq_left (by omega)] at hlt
      rw [length_take]
      omega

/-- A payload that was read has a length of four bytes. -/
theorem length_of_readFrames {fuel : ℕ} {data : List UInt8} {entries : List BinaryEntryFrame}
    (h : readFrames fuel data = some entries) : ∀ frame ∈ entries, frame.payload.length < 2 ^ 32 := by
  induction fuel generalizing data entries with
  | zero =>
    cases data with
    | nil =>
      obtain rfl := some.inj h
      exact fun _ hframe => nomatch hframe
    | cons byte data => exact nomatch h
  | succ fuel ih =>
    cases data with
    | nil =>
      obtain rfl := some.inj h
      exact fun _ hframe => nomatch hframe
    | cons byte data =>
      simp only [readFrames, bind_eq_some_iff, map_eq_some_iff] at h
      obtain ⟨_, -, payload, hpayload, _, -, entries', hentries, rfl⟩ := h
      exact forall_mem_cons.mpr ⟨length_of_readChunk hpayload, ih hentries⟩

end MindooDB
