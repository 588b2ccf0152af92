import MindooDB.Lib.JsonFormat
import MindooDB.Server.Entry

/-!
# Server/WireFormat — the signed blocks of an entry in JSON

The references to attachments, the recipients and the provenance of an entry travel as the plain
objects they are.  A provenance holds the fields that were signed at its source, which may have a
provenance themselves.
-/

namespace MindooDB

open JsonFormat List Option

namespace WireFormat

/-! ## Attachments and recipients -/

def attachmentRef : JsonFormat StoreEntryAttachmentRef :=
  .object
    (fun ref =>
      [("attachmentId", some (string.write ref.attachmentId)),
        ("lastChunkId", some (string.write ref.lastChunkId)),
        ("size", some (integer.write ref.size))])
    (fun data => do
      let attachmentId ← required .string data "attachmentId"
      let lastChunkId ← required .string data "lastChunkId"
      let size ← required .integer data "size"
      some { attachmentId, lastChunkId, size })
    (fun ref => by
      simp only [map_cons, map_nil]
      decide +kernel)
    fun ref data h => by
      simp only [forall_mem_cons] at h
      obtain ⟨hid, hchunk, hsize, -⟩ := h
      simp only [required_eq hid, required_eq hchunk, required_eq hsize, bind_eq_bind,
        bind_some]

def wrapKind : JsonFormat WrapKind :=
  string.iso WrapKind.text
    (fun text => if text = "user" then some .user else if text = "device" then some .device else none)
    fun kind => by cases kind <;> decide +kernel

def wrap : JsonFormat EntryRecipientWrap :=
  .object
    (fun wrap =>
      [("kind", some (wrapKind.write wrap.kind)),
        ("keyFingerprint", some (string.write wrap.keyFingerprint)),
        ("wrapped", some (string.write wrap.wrapped))])
    (fun data => do
      let kind ← required wrapKind data "kind"
      let keyFingerprint ← required .string data "keyFingerprint"
      let wrapped ← required .string data "wrapped"
      some { kind, keyFingerprint, wrapped })
    (fun wrap => by
      simp only [map_cons, map_nil]
      decide +kernel)
    fun wrap data h => by
      simp only [forall_mem_cons] at h
      obtain ⟨hkind, hfingerprint, hwrapped, -⟩ := h
      simp only [required_eq hkind, required_eq hfingerprint, required_eq hwrapped, bind_eq_bind,
        bind_some]

def recipients : JsonFormat EntryRecipients :=
  .object
    (fun recipients =>
      [("epoch", some (integer.write recipients.epoch)),
        ("bundle", some (string.write recipients.bundle)),
        ("wraps", some ((list wrap).write recipients.wraps)),
        ("namesEncrypted", recipients.namesEncrypted.map string.write)])
    (fun data => do
      let epoch ← required .integer data "epoch"
      let bundle ← required .string data "bundle"
      let wraps ← required (.list wrap) data "wraps"
      let namesEncrypted ← optional .string data "namesEncrypted"
      some { epoch, bundle, wraps, namesEncrypted })
    (fun recipients => by
      simp only [map_cons, map_nil]
      decide +kernel)
    fun recipients data h => by
      simp only [forall_mem_cons] at h
      obtain ⟨hepoch, hbundle, hwraps, hnames, -⟩ := h
      simp only [required_eq hepoch, required_eq hbundle, required_eq hwraps, optional_eq hnames,
        bind_eq_bind, bind_some]

/-! ## Provenance -/

abbrev Provenance := EntryProvenance EntrySignatureFields

/-- The fields of a provenance, with what its source is written as. -/
def provenanceMembers (provenance : Provenance) (source : JsonTree) :
    List (JSString × Option JsonTree) :=
  [("sourceTenantId", some (string.write provenance.sourceTenantId)),
    ("sourceDbId", some (string.write provenance.sourceDbId)),
    ("source", some source),
    ("sourceMetadataSignature", provenance.sourceMetadataSignature.map string.write)]

/-- The signed fields, with what their provenance is written as. -/
def signatureMembers (fields : EntrySignatureFields) (provenance : Option JsonTree) :
    List (JSString × Option JsonTree) :=
  [("entryType", some (string.write fields.entryType)),
    ("id", some (string.write fields.id)),
    ("docId", some (string.write fields.docId)),
    ("decryptionKeyId", some (string.write fields.decryptionKeyId)),
    ("createdAt", some (integer.write fields.createdAt)),
    ("dependencyIds", some ((list .string).write fields.dependencyIds)),
    ("contentHash", some (string.write fields.contentHash)),
    ("createdByPublicKey", some (string.write fields.createdByPublicKey)),
    ("attachmentRefs", fields.attachmentRefs.map (list attachmentRef).write),
    ("provenance", provenance),
    ("recipients", fields.recipients.map recipients.write)]

def writeFields : EntrySignatureFields → JsonTree
  | { entryType, id, docId, decryptionKeyId, createdAt, dependencyIds, contentHash,
      createdByPublicKey, attachmentRefs, provenance, recipients } =>
    let block : Option JsonTree := match provenance with
      | none => none
      | some { sourceTenantId, sourceDbId, source, sourceMetadataSignature } =>
        some (.object (members (provenanceMembers
          { sourceTenantId, sourceDbId, source, sourceMetadataSignature } (writeFields source))))
    .object (members (signatureMembers
      { entryType, id, docId, decryptionKeyId, createdAt, dependencyIds, contentHash,
        createdByPublicKey, attachmentRefs, provenance, recipients } block))
termination_by structural fields => fields

/-- A provenance whose source has been read. -/
def provenanceOf (data : List (JSString × JsonTree)) (source : Option EntrySignatureFields) :
    Option Provenance := do
  let sourceTenantId ← required .string data "sourceTenantId"
  let sourceDbId ← required .string data "sourceDbId"
  let source ← source
  let sourceMetadataSignature ← optional .string data "sourceMetadataSignature"
  some { sourceTenantId, sourceDbId, source, sourceMetadataSignature }

/-- Signed fields whose provenance has been read, if there is one. -/
def signatureFieldsOf (data : List (JSString × JsonTree)) (provenance : Option (Option Provenance)) :
    Option EntrySignatureFields := do
  let entryType ← required .string data "entryType"
  let id ← required .string data "id"
  let docId ← required .string data "docId"
  let decryptionKeyId ← required .string data "decryptionKeyId"
  let createdAt ← required .integer data "createdAt"
  let dependencyIds ← required (.list .string) data "dependencyIds"
  let contentHash ← required .string data "contentHash"
  let createdByPublicKey ← required .string data "createdByPublicKey"
  let attachmentRefs ← optional (.list attachmentRef) data "attachmentRefs"
  let provenance ← provenance.elim (some none) fun provenance => provenance.map some
  let recipients ← optional recipients data "recipients"
  some
    { entryType, id, docId, decryptionKeyId, createdAt, dependencyIds, contentHash,
      createdByPublicKey, attachmentRefs, provenance, recipients }

mutual

def readFields : JsonTree → Option EntrySignatureFields
  | .object data => signatureFieldsOf data ((readProvenances data).reverse.lookup ("provenance" : JSString))
  | _ => none

def readProvenances : List (JSString × JsonTree) → List (JSString × Option Provenance)
  | [] => []
  | (name, value) :: data => (name, readProvenance value) :: readProvenances data

def readProvenance : JsonTree → Option Provenance
  | .object data => provenanceOf data ((readSources data).reverse.lookup ("source" : JSString)).join
  | _ => none

def readSources : List (JSString × JsonTree) → List (JSString × Option EntrySignatureFields)
  | [] => []
  | (name, value) :: data => (name, readFields value) :: readSources data

end

theorem readProvenances_eq (data : List (JSString × JsonTree)) :
    readProvenances data = data.map fun m => (m.1, readProvenance m.2) := by
  induction data with
  | nil => rfl
  | cons m data ih => rw [map_cons, ← ih, readProvenances]

theorem readSources_eq (data : List (JSString × JsonTree)) :
    readSources data = data.map fun m => (m.1, readFields m.2) := by
  induction data with
  | nil => rfl
  | cons m data ih => rw [map_cons, ← ih, readSources]

theorem lookup_map {α β : Type} (f : α → β) (data : List (JSString × α)) (name : JSString) :
    (data.map fun m => (m.1, f m.2)).reverse.lookup name = (data.reverse.lookup name).map f := by
  rw [← map_reverse]
  induction data.reverse with
  | nil => rfl
  | cons m data ih =>
    rw [map_cons, lookup_cons, lookup_cons]
    split
    · rfl
    · exact ih

theorem readFields_object (data : List (JSString × JsonTree)) :
    readFields (.object data)
      = signatureFieldsOf data ((JsonTree.field data "provenance").map readProvenance) := by
  rw [readFields, readProvenances_eq, lookup_map, JsonTree.field]

theorem readProvenance_object (data : List (JSString × JsonTree)) :
    readProvenance (.object data)
      = provenanceOf data ((JsonTree.field data "source").bind readFields) := by
  rw [readProvenance, readSources_eq, lookup_map, JsonTree.field]
  cases data.reverse.lookup ("source" : JSString) <;> rfl

theorem nodup_provenanceMembers (provenance : Provenance) (source : JsonTree) :
    ((provenanceMembers provenance source).map Prod.fst).Nodup := by
  simp only [provenanceMembers, map_cons, map_nil]
  decide +kernel

theorem nodup_signatureMembers (fields : EntrySignatureFields) (provenance : Option JsonTree) :
    ((signatureMembers fields provenance).map Prod.fst).Nodup := by
  simp only [signatureMembers, map_cons, map_nil]
  decide +kernel

/-- A provenance is read back when its source is. -/
theorem readProvenance_members {provenance : Provenance} {source : JsonTree}
    (hsource : readFields source = some provenance.source) :
    readProvenance (.object (members (provenanceMembers provenance source)))
      = some provenance := by
  have h := fun f hf => @field_members _ (nodup_provenanceMembers provenance source) f hf
  rw [readProvenance_object]
  generalize members (provenanceMembers provenance source) = data at h ⊢
  simp only [provenanceMembers, forall_mem_cons] at h
  obtain ⟨htenant, hdb, hinner, hsignature, -⟩ := h
  simp only [provenanceOf, hinner, bind_some, hsource, required_eq htenant, required_eq hdb,
    optional_eq hsignature, bind_eq_bind]

theorem readFields_members {fields : EntrySignatureFields} {provenance : Option JsonTree}
    (hprovenance : (provenance.map readProvenance).elim (some none) (fun p => p.map some)
      = some fields.provenance) :
    readFields (.object (members (signatureMembers fields provenance))) = some fields := by
  have h := fun f hf => @field_members _ (nodup_signatureMembers fields provenance) f hf
  rw [readFields_object]
  generalize members (signatureMembers fields provenance) = data at h ⊢
  simp only [signatureMembers, forall_mem_cons] at h
  obtain ⟨htype, hid, hdoc, hkey, hcreated, hdeps, hhash, hauthor, hrefs, hprov, hrecipients, -⟩ := h
  simp only [signatureFieldsOf, hprov, hprovenance, required_eq htype, required_eq hid,
    required_eq hdoc, required_eq hkey, required_eq hcreated, required_eq hdeps, required_eq hhash,
    required_eq hauthor, optional_eq hrefs, optional_eq hrecipients, bind_eq_bind,
    bind_some]
  cases fields
  rfl

/-- **Signed fields are read back**, through all their sources. -/
theorem readFields_writeFields : ∀ fields : EntrySignatureFields,
    readFields (writeFields fields) = some fields
  | { entryType, id, docId, decryptionKeyId, createdAt, dependencyIds, contentHash,
      createdByPublicKey, attachmentRefs, provenance, recipients } => by
    cases provenance with
    | none => exact readFields_members rfl
    | some provenance =>
      obtain ⟨sourceTenantId, sourceDbId, source, sourceMetadataSignature⟩ := provenance
      have ih := readFields_writeFields source
      refine readFields_members ?_
      rw [map_some, elim_some, readProvenance_members ih, map_some]
termination_by structural fields => fields

/-- A provenance is written with the fields of its source. -/
def provenance : JsonFormat Provenance where
  write provenance :=
    .object (members (provenanceMembers provenance (writeFields provenance.source)))
  read := readProvenance
  read_write _ := readProvenance_members (readFields_writeFields _)

end WireFormat

end MindooDB
