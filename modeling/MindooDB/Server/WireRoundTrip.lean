import MindooDB.Server.WireCodec

/-!
# Server/WireRoundTrip — what arrives of an entry

An entry arrives as it was sent, in JSON as in a frame, exactly when none of the four fields is set
that the codec does not serialize (`transfer_spec`).  Every witnessed entry has one of them: its
`receiptScheme` (`transferJson_receiptScheme`).
-/

namespace MindooDB

open List Option

/-! ## Sending and receiving -/

/-- An entry in JSON, from one side to the other. -/
def transferJson (entry : SyncEntry) : Option SyncEntry :=
  (JsonTree.parse (WireFormat.entry.write (serializeStoreEntry entry)).stringify).bind fun value =>
    (WireFormat.entry.read value).bind deserializeStoreEntry

/-- A binary message of some entries. -/
def binaryMessage (header : JsonTree) (entries : List SyncEntry) : BinaryEntryMessage where
  header
  entries := entries.map fun entry =>
    ⟨WireFormat.metadata.write (serializeEntryMetadata entry.toSyncEntryMetadata), entry.encryptedData⟩

def receiveFrame (frame : BinaryEntryFrame) : Option SyncEntry :=
  (WireFormat.metadata.read frame.metadata).bind fun serialized =>
    (deserializeEntryMetadata serialized).map fun metadata => ⟨metadata, frame.payload⟩

/-- Some entries in a binary message, from one side to the other, with what it says of them all. -/
def transferBinary (header : JsonTree) (entries : List SyncEntry) :
    Option (JsonTree × List SyncEntry) :=
  (decodeBinaryEntryMessage (encodeBinaryEntryMessage (binaryMessage header entries))).bind
    fun message => (message.entries.mapM receiveFrame).map fun entries => (message.header, entries)

/-- **No field is set that is not serialized.** -/
structure SyncEntryMetadata.Travels (metadata : SyncEntryMetadata) : Prop where
  attachmentId : metadata.attachmentId = none
  attachmentIds : metadata.attachmentIds = none
  uploadStartedAt : metadata.uploadStartedAt = none
  receiptScheme : metadata.receiptScheme = none

/-- No signature is there but empty. -/
def SyncEntryMetadata.Signed (metadata : SyncEntryMetadata) : Prop :=
  metadata.metadataSignature ≠ some [] ∧ metadata.receivedDateSignature ≠ some []

/-- **Nothing is lost on the wire.** -/
structure SurvivesTransfer (header : JsonTree) (entries : List SyncEntry) : Prop where
  json : ∀ entry ∈ entries, transferJson entry = some entry
  binary : transferBinary header entries = some (header, entries)

/-- The fields that an author signed arrive. -/
structure SignedFieldsSurvive (header : JsonTree) (entries : List SyncEntry) : Prop where
  json : ∀ entry ∈ entries,
    (transferJson entry).map (fun arrived => entrySignatureFieldsFromEntry arrived.toSyncEntryMetadata)
      = some (entrySignatureFieldsFromEntry entry.toSyncEntryMetadata)
  binary : (binaryMessage header entries).Fits →
    (transferBinary header entries).map (fun arrived => arrived.2.map fun entry =>
        entrySignatureFieldsFromEntry entry.toSyncEntryMetadata)
      = some (entries.map fun entry => entrySignatureFieldsFromEntry entry.toSyncEntryMetadata)

/-! ## What arrives -/

/-- What arrives of some metadata. -/
def SyncEntryMetadata.sent (metadata : SyncEntryMetadata) : SyncEntryMetadata :=
  { metadata with
    attachmentId := none
    attachmentIds := none
    uploadStartedAt := none
    receiptScheme := none }

def SyncEntry.sent (entry : SyncEntry) : SyncEntry :=
  { entry.toSyncEntryMetadata.sent with encryptedData := entry.encryptedData }

theorem sent_eq_iff (entry : SyncEntry) :
    entry.sent = entry ↔ entry.toSyncEntryMetadata.Travels := by
  constructor
  · intro h
    refine ⟨?_, ?_, ?_, ?_⟩ <;> rw [← h] <;> rfl
  · rintro ⟨hid, hids, hstarted, hscheme⟩
    rcases entry with ⟨⟨⟨⟨⟩⟩⟩⟩
    simp only at hid hids hstarted hscheme
    subst hid hids hstarted hscheme
    rfl

theorem isEmpty_bytesToBase64 {bytes : List UInt8} (h : bytes ≠ []) :
    (bytesToBase64 bytes).isEmpty = false := by
  rcases hempty : (bytesToBase64 bytes).isEmpty with _ | _
  · rfl
  · have hnil : bytesToBase64 bytes = bytesToBase64 [] := by
      rw [JSString.isEmpty, List.isEmpty_iff] at hempty
      exact JSString.units_injective hempty
    have hread := Base64.atob_btoa bytes
    rw [show Base64.btoa bytes = Base64.btoa [] from hnil, Base64.atob_btoa] at hread
    exact absurd (some.inj hread).symm h

theorem signatureBytes_bytesToBase64 {signature : Option (List UInt8)} (h : signature ≠ some []) :
    signatureBytes (signature.map bytesToBase64) = some signature := by
  cases signature with
  | none => rfl
  | some bytes =>
    have hne : bytes ≠ [] := fun heq => h (heq ▸ rfl)
    rw [map_some, signatureBytes]
    simp only [isEmpty_bytesToBase64 hne, Bool.false_eq_true, if_false]
    rw [base64ToBytes, bytesToBase64, Base64.atob_btoa, map_some]

theorem deserialize_serialize {metadata : SyncEntryMetadata} (h : metadata.Signed) :
    deserializeEntryMetadata (serializeEntryMetadata metadata) = some metadata.sent := by
  have hsignature : base64ToBytes (serializeEntryMetadata metadata).signature
      = some metadata.signature := Base64.atob_btoa metadata.signature
  have hmetadata : signatureBytes (serializeEntryMetadata metadata).metadataSignature
      = some metadata.metadataSignature := signatureBytes_bytesToBase64 h.1
  have hreceipt : signatureBytes (serializeEntryMetadata metadata).receivedDateSignature
      = some metadata.receivedDateSignature := signatureBytes_bytesToBase64 h.2
  simp only [deserializeEntryMetadata, hsignature, hmetadata, hreceipt, bind_eq_bind,
    bind_some]
  rfl

variable {entry : SyncEntry}

/-- **What arrives in JSON.** -/
theorem transferJson_eq (h : entry.Signed) : transferJson entry = some entry.sent := by
  have hmetadata : deserializeEntryMetadata (serializeStoreEntry entry).toSerializedEntryMetadata
      = some entry.toSyncEntryMetadata.sent := deserialize_serialize h
  have hpayload : base64ToBytes (serializeStoreEntry entry).encryptedData = some entry.encryptedData :=
    Base64.atob_btoa entry.encryptedData
  rw [transferJson, JsonTree.parse_stringify, bind_some, WireFormat.entry.read_write,
    bind_some]
  simp only [deserializeStoreEntry, hmetadata, hpayload, bind_eq_bind, bind_some]
  rfl

theorem receiveFrame_eq (h : entry.Signed) :
    receiveFrame ⟨WireFormat.metadata.write (serializeEntryMetadata entry.toSyncEntryMetadata),
      entry.encryptedData⟩ = some entry.sent := by
  rw [receiveFrame, WireFormat.metadata.read_write, bind_some, deserialize_serialize h]
  rfl

theorem mapM_receiveFrame (header : JsonTree) {entries : List SyncEntry}
    (h : ∀ entry ∈ entries, entry.Signed) :
    (binaryMessage header entries).entries.mapM receiveFrame = some (entries.map SyncEntry.sent) := by
  induction entries with
  | nil => rfl
  | cons entry entries ih =>
    obtain ⟨hentry, hentries⟩ := forall_mem_cons.mp h
    have hrest := ih hentries
    simp only [binaryMessage, map_cons] at hrest ⊢
    rw [mapM_cons, receiveFrame_eq hentry]
    simp only [bind_eq_bind, bind_some, hrest]
    rfl

/-- **What arrives in frames.** -/
theorem transferBinary_eq {header : JsonTree} {entries : List SyncEntry}
    (h : ∀ entry ∈ entries, entry.Signed) (hfits : (binaryMessage header entries).Fits) :
    transferBinary header entries = some (header, entries.map SyncEntry.sent) := by
  rw [transferBinary, decode_encode hfits, bind_some, mapM_receiveFrame header h,
    map_some]
  rfl

theorem encryptedData_of_receiveFrame {frame : BinaryEntryFrame}
    (h : receiveFrame frame = some entry) : entry.encryptedData = frame.payload := by
  simp only [receiveFrame, bind_eq_some_iff, map_eq_some_iff] at h
  obtain ⟨_, -, _, -, rfl⟩ := h
  rfl

theorem exists_receiveFrame {frames : List BinaryEntryFrame} {entries : List SyncEntry}
    (h : frames.mapM receiveFrame = some entries) :
    ∀ entry ∈ entries, ∃ frame ∈ frames, receiveFrame frame = some entry := by
  induction frames generalizing entries with
  | nil =>
    obtain rfl := some.inj h
    exact fun _ hentry => nomatch hentry
  | cons frame frames ih =>
    rw [mapM_cons] at h
    obtain ⟨first, hfirst, hrest⟩ := bind_eq_some_iff.mp h
    obtain ⟨rest, hmap, heq⟩ := bind_eq_some_iff.mp hrest
    obtain rfl := some.inj heq
    refine forall_mem_cons.mpr ⟨⟨frame, mem_cons_self, hfirst⟩, fun entry hentry => ?_⟩
    obtain ⟨found, hfound, hread⟩ := ih hmap entry hentry
    exact ⟨found, mem_cons_of_mem _ hfound, hread⟩

/-- What arrives in frames has a payload that fits. -/
theorem length_of_transferBinary {header header' : JsonTree} {entries entries' : List SyncEntry}
    (h : transferBinary header entries = some (header', entries')) :
    ∀ entry ∈ entries', entry.encryptedData.length < 2 ^ 32 := by
  obtain ⟨message, hmessage, hread⟩ := bind_eq_some_iff.mp h
  obtain ⟨arrived, harrived, heq⟩ := map_eq_some_iff.mp hread
  obtain ⟨-, rfl⟩ := Prod.mk.inj heq
  have hframes : ∀ frame ∈ message.entries, frame.payload.length < 2 ^ 32 := by
    obtain ⟨chunk, -, hchunk⟩ := bind_eq_some_iff.mp hmessage
    obtain ⟨_, -, hdecoded⟩ := bind_eq_some_iff.mp hchunk
    obtain ⟨frames, hframes, rfl⟩ := map_eq_some_iff.mp hdecoded
    exact length_of_readFrames hframes
  intro entry hentry
  obtain ⟨frame, hframe, hreceive⟩ := exists_receiveFrame harrived entry hentry
  rw [encryptedData_of_receiveFrame hreceive]
  exact hframes frame hframe

/-! ## Nothing is lost but four fields -/

theorem entrySignatureFieldsFromEntry_sent (entry : SyncEntry) :
    entrySignatureFieldsFromEntry entry.sent.toSyncEntryMetadata
      = entrySignatureFieldsFromEntry entry.toSyncEntryMetadata := rfl

theorem map_sent {entries : List SyncEntry} (h : ∀ entry ∈ entries, entry.Travels) :
    entries.map SyncEntry.sent = entries := by
  rw [map_congr_left fun entry hentry => (sent_eq_iff entry).mpr (h entry hentry), List.map_id']

/-- **Entries arrive as they were sent** when none has a field that is not serialized and all texts
and payloads have lengths of four bytes.  Such a field never arrives, nor does a longer payload; what
was signed always does. -/
theorem transfer_spec (header : JsonTree) (entries : List SyncEntry)
    (hsigned : ∀ entry ∈ entries, entry.Signed) :
    ((∀ entry ∈ entries, entry.Travels) ∧ (binaryMessage header entries).Fits →
        SurvivesTransfer header entries)
      ∧ (SurvivesTransfer header entries →
        (∀ entry ∈ entries, entry.Travels) ∧ ∀ entry ∈ entries, entry.encryptedData.length < 2 ^ 32)
      ∧ SignedFieldsSurvive header entries := by
  refine ⟨fun ⟨htravels, hfits⟩ => ⟨fun entry hentry => ?_, ?_⟩, fun h => ⟨fun entry hentry => ?_, ?_⟩,
    fun entry hentry => ?_, fun hfits => ?_⟩
  · rw [transferJson_eq (hsigned entry hentry), (sent_eq_iff entry).mpr (htravels entry hentry)]
  · rw [transferBinary_eq hsigned hfits, map_sent htravels]
  · have hjson := h.json entry hentry
    rw [transferJson_eq (hsigned entry hentry)] at hjson
    exact (sent_eq_iff entry).mp (some.inj hjson)
  · exact length_of_transferBinary h.binary
  · rw [transferJson_eq (hsigned entry hentry), map_some, entrySignatureFieldsFromEntry_sent]
  · rw [transferBinary_eq hsigned hfits, map_some, List.map_map]
    rfl

/-! ## A witnessed entry -/

/-- An entry that a server has stamped, as it was before there were schemes. -/
def stampedEntry : SyncEntry where
  entryType := .docCreate
  id := "doc1_d_abcd"
  contentHash := "c0ffee"
  docId := "doc1"
  dependencyIds := []
  snapshotHeadEntryIds := none
  createdAt := 1000
  receiptOrder := some 1
  receivedAt := some 1001
  receivedByPublicKey := some "server"
  receivedDateSignature := some [7, 8]
  receiptScheme := none
  decryptionKeyId := "default"
  createdByPublicKey := "alice"
  signature := [1, 2]
  metadataSignature := some [3]
  originalSize := 2
  encryptedSize := 3
  encryptedData := [4, 5, 6]

/-- The entry as `Ed25519WitnessProvider` stamps it. -/
def witnessedEntry : SyncEntry := { stampedEntry with receiptScheme := some "ed25519-witness" }

theorem transfer_spec_stampedEntry :
    SurvivesTransfer (.object []) [stampedEntry] :=
  (transfer_spec (.object []) [stampedEntry]
    (forall_mem_singleton.mpr ⟨by decide, by decide⟩)).1
    ⟨forall_mem_singleton.mpr ⟨rfl, rfl, rfl, rfl⟩,
      by decide +kernel, forall_mem_singleton.mpr (by decide +kernel),
      forall_mem_singleton.mpr (by decide +kernel)⟩

/-- **The scheme of a receipt does not arrive**, in either format. -/
theorem transferJson_receiptScheme : transferJson witnessedEntry ≠ some witnessedEntry := by
  rw [transferJson_eq ⟨by decide, by decide⟩]
  intro h
  exact nomatch ((sent_eq_iff witnessedEntry).mp (some.inj h)).receiptScheme

end MindooDB
