import MindooDB.Signing.Layout

/-!
# Signing/Purposes — what one signature can be taken for

An application's statement begins with a letter and is never taken for an entry or a receipt.  These
two share the version byte and their first four strings, so what follows decides: a receipt is an
entry's bytes exactly when its fields from the document on read as those of the entry from the time
of its creation on, as both are encoded (`signingPurposes_disjoint_iff`).  A client can choose them
so (`not_signingPurposes_disjoint`).
-/

namespace MindooDB

open ByteFormat List TextEncoding WitnessReceiptFields

/-! ## The fields that are encoded -/

/-- The fields as they are encoded, without lone surrogates.  A source is encoded apart. -/
def EntrySignatureFields.encoded (fields : EntrySignatureFields) : EntrySignatureFields :=
  { fields with
    entryType := toWellFormed fields.entryType
    id := toWellFormed fields.id
    docId := toWellFormed fields.docId
    decryptionKeyId := toWellFormed fields.decryptionKeyId
    dependencyIds := fields.dependencyIds.map toWellFormed
    contentHash := toWellFormed fields.contentHash
    createdByPublicKey := toWellFormed fields.createdByPublicKey
    attachmentRefs := fields.attachmentRefs.map (List.map fun ref => { ref with
      attachmentId := toWellFormed ref.attachmentId, lastChunkId := toWellFormed ref.lastChunkId })
    provenance := fields.provenance.map fun p => { p with
      sourceTenantId := toWellFormed p.sourceTenantId, sourceDbId := toWellFormed p.sourceDbId } }

def WitnessReceiptFields.encoded (receipt : WitnessReceiptFields) : WitnessReceiptFields :=
  { receipt with
    entryType := toWellFormed receipt.entryType
    dbid := toWellFormed receipt.dbid
    contentHash := toWellFormed receipt.contentHash
    id := toWellFormed receipt.id
    docId := toWellFormed receipt.docId
    decryptionKeyId := toWellFormed receipt.decryptionKeyId
    createdByPublicKey := toWellFormed receipt.createdByPublicKey
    receivedByPublicKey := toWellFormed receipt.receivedByPublicKey }

/-- Integers of 64 bits, and fewer than 2²⁵ attachments. -/
structure EntrySignatureFields.IsSized (fields : EntrySignatureFields) : Prop where
  createdAt : IsInt64 fields.createdAt
  sizes : ∀ ref ∈ fields.attachmentRefs.getD [], IsInt64 ref.size
  attachmentRefs : (fields.attachmentRefs.getD []).length < 2 ^ 25

/-- Times of 64 bits. -/
structure WitnessReceiptFields.IsSized (receipt : WitnessReceiptFields) : Prop where
  createdAt : IsInt64 receipt.createdAt
  receivedAt : IsInt64 receipt.receivedAt

@[simp] theorem pushString_toWellFormed (s : JSString) : pushString (toWellFormed s) = pushString s := by
  rw [pushString, encode_toWellFormed, pushString]

section Encoded

variable {version : ℕ} {fields : EntrySignatureFields} {receipt : WitnessReceiptFields}

theorem buildEntrySigningBytes_encoded :
    buildEntrySigningBytes version fields.encoded = buildEntrySigningBytes version fields := by
  obtain ⟨entryType, id, docId, decryptionKeyId, createdAt, dependencyIds, contentHash,
    createdByPublicKey, attachmentRefs, provenance, recipients⟩ := fields
  have hrefs : pushAttachmentRefs (attachmentRefs.map (List.map fun ref => { ref with
      attachmentId := toWellFormed ref.attachmentId, lastChunkId := toWellFormed ref.lastChunkId }))
      = pushAttachmentRefs attachmentRefs := by
    rcases attachmentRefs with _ | _ | ⟨ref, refs⟩
    · rfl
    · rfl
    · have href : ∀ ref : StoreEntryAttachmentRef, pushAttachmentRef { ref with
          attachmentId := toWellFormed ref.attachmentId, lastChunkId := toWellFormed ref.lastChunkId }
          = pushAttachmentRef ref := fun ref => by simp [pushAttachmentRef]
      simp [pushAttachmentRefs, flatMap_map, href]
  rw [buildEntrySigningBytes.eq_def, buildEntrySigningBytes.eq_def]
  cases provenance with
  | none | some => simp [EntrySignatureFields.encoded, hrefs, flatMap_map,
      EntryProvenance.signatureBytes]

theorem buildWitnessSigningBytes_encoded :
    buildWitnessSigningBytes receipt.encoded version = buildWitnessSigningBytes receipt version := by
  simp [buildWitnessSigningBytes, WitnessReceiptFields.encoded]

theorem EntrySignatureFields.strings_encoded :
    fields.encoded.strings = fields.strings.map toWellFormed := by
  cases hrefs : fields.attachmentRefs <;> cases hp : fields.provenance <;>
    simp [strings, encoded, hrefs, hp, map_flatMap, flatMap_map]

theorem EntrySignatureFields.IsSized.encoded (h : fields.IsSized) : fields.encoded.IsSignable := by
  have hrefs : fields.encoded.attachmentRefs.getD [] = (fields.attachmentRefs.getD []).map fun ref =>
      { ref with attachmentId := toWellFormed ref.attachmentId,
                 lastChunkId := toWellFormed ref.lastChunkId } := by
    rw [EntrySignatureFields.encoded]
    cases fields.attachmentRefs <;> rfl
  refine ⟨fun s hs => ?_, h.createdAt, fun ref href => ?_, ?_⟩
  · rw [strings_encoded] at hs
    obtain ⟨t, -, rfl⟩ := mem_map.mp hs
    exact isWellFormed_toWellFormed t
  · rw [hrefs] at href
    obtain ⟨ref', href', rfl⟩ := mem_map.mp href
    exact h.sizes ref' href'
  · rw [hrefs, length_map]
    exact h.attachmentRefs

theorem EntrySignatureFields.IsShort.encoded (h : fields.IsShort version) :
    fields.encoded.IsShort version := by
  refine ⟨fun s hs => ?_, ?_, fun p bytes hp => ?_, fun p bytes hp => ?_, h.recipients⟩
  · rw [strings_encoded] at hs
    obtain ⟨t, ht, rfl⟩ := mem_map.mp hs
    rw [encode_toWellFormed]
    exact h.strings t ht
  · change (fields.dependencyIds.map toWellFormed).length < _
    rw [length_map]
    exact h.dependencyIds
  · obtain ⟨p', hp', rfl⟩ := Option.map_eq_some_iff.mp hp
    exact h.source p' bytes hp'
  · obtain ⟨p', hp', rfl⟩ := Option.map_eq_some_iff.mp hp
    exact h.signature p' bytes hp'

theorem WitnessReceiptFields.strings_encoded :
    receipt.encoded.strings = receipt.strings.map toWellFormed := rfl

theorem WitnessReceiptFields.IsSized.encoded (h : receipt.IsSized) : receipt.encoded.IsSignable := by
  refine ⟨fun s hs => ?_, h.createdAt, h.receivedAt⟩
  rw [strings_encoded] at hs
  obtain ⟨t, -, rfl⟩ := mem_map.mp hs
  exact isWellFormed_toWellFormed t

theorem WitnessReceiptFields.IsShort.encoded (h : receipt.IsShort) : receipt.encoded.IsShort := by
  intro s hs
  rw [strings_encoded] at hs
  obtain ⟨t, ht, rfl⟩ := mem_map.mp hs
  rw [encode_toWellFormed]
  exact h t ht

end Encoded

/-! ## Receipts that read as entries -/

/-- **A receipt that reads as an entry.** -/
structure ReadsAs (receipt : WitnessReceiptFields) (fields : EntrySignatureFields) : Prop where
  entryType : fields.entryType = receipt.entryType
  id : fields.id = receipt.dbid
  docId : fields.docId = receipt.contentHash
  decryptionKeyId : fields.decryptionKeyId = receipt.id
  tail : ∃ tail, fields.tail ENTRY_SIGNATURE_LAYOUT_VERSION = some tail ∧
    entryTailFormat.read (tailFormat.write receipt.tail) = some tail

/-- Four strings, and what follows. -/
def headFormat : TotalFormat (JSString × JSString × JSString × JSString × List UInt8) :=
  .cons (text 4) <| .cons (text 4) <| .cons (text 4) <| .cons (text 4) .bytes

variable {fields : EntrySignatureFields} {receipt : WitnessReceiptFields}

theorem buildEntrySigningBytes_eq_buildWitnessSigningBytes_iff
    (hsignable : fields.IsSignable) (hshort : fields.IsShort ENTRY_SIGNATURE_LAYOUT_VERSION)
    (hsignable' : receipt.IsSignable) (hshort' : receipt.IsShort) :
    buildEntrySigningBytes ENTRY_SIGNATURE_LAYOUT_VERSION fields
        = some (buildWitnessSigningBytes receipt WITNESS_RECEIPT_LAYOUT_VERSION)
      ↔ ReadsAs receipt fields := by
  rw [buildEntrySigningBytes_eq, buildWitnessSigningBytes_eq, Option.map_eq_some_iff]
  have hreceipt := fits_layout hsignable' hshort'
  constructor
  · rintro ⟨l, hl, hbytes⟩
    have hentry := EntrySignatureFields.fits_layout hsignable hshort hl
    obtain ⟨tail, htail, rfl⟩ := Option.map_eq_some_iff.mp hl
    have hparts : (fields.entryType, fields.id, fields.docId, fields.decryptionKeyId,
          entryTailFormat.write tail)
        = (receipt.entryType, receipt.dbid, receipt.contentHash, receipt.id,
          tailFormat.write receipt.tail) := by
      refine headFormat.write_injective ?_ ?_ (cons_injective hbytes)
      · exact ⟨hentry.1, hentry.2.1, hentry.2.2.1, hentry.2.2.2.1, trivial⟩
      · exact ⟨hreceipt.1, hreceipt.2.1, hreceipt.2.2.1, hreceipt.2.2.2.1, trivial⟩
    simp only [Prod.mk.injEq] at hparts
    obtain ⟨htype, hid, hdocId, hkeyId, hrest⟩ := hparts
    exact ⟨htype, hid, hdocId, hkeyId, tail, htail,
      entryTailFormat.read_eq_some_iff.mpr ⟨hentry.2.2.2.2, hrest⟩⟩
  · rintro ⟨htype, hid, hdocId, hkeyId, tail, htail, hread⟩
    refine ⟨_, congrArg (Option.map _) htail, congrArg (List.cons _) ?_⟩
    obtain ⟨-, hrest⟩ := entryTailFormat.read_eq_some_iff.mp hread
    change headFormat.write (fields.entryType, fields.id, fields.docId, fields.decryptionKeyId,
      entryTailFormat.write tail) = headFormat.write (receipt.entryType, receipt.dbid,
        receipt.contentHash, receipt.id, tailFormat.write receipt.tail)
    rw [htype, hid, hdocId, hkeyId, hrest]

/-- A statement begins with a letter. -/
theorem head?_buildDomainStatementBytes {domain : JSString} {statement bytes : List UInt8}
    (h : buildDomainStatementBytes domain statement = some bytes) : bytes.head? = some 0x6D := by
  rw [buildDomainStatementBytes] at h
  split_ifs at h with hdomain hlength
  obtain rfl := Option.some.inj h
  rw [Bool.not_eq_true, Bool.not_eq_false', isAllowedSigningDomain, decide_eq_true_eq,
    signingDomains, mem_singleton] at hdomain
  have hletter : (TextEncoding.encode "mindoodb-seal/v1").head? = some 0x6D := by decide +kernel
  rw [hdomain, head?_append, hletter, Option.some_or]

theorem head?_buildEntrySigningBytes {bytes : List UInt8}
    (h : buildEntrySigningBytes ENTRY_SIGNATURE_LAYOUT_VERSION fields = some bytes) :
    bytes.head? = some 0x01 := by
  rw [buildEntrySigningBytes_eq] at h
  obtain ⟨l, -, rfl⟩ := Option.map_eq_some_iff.mp h
  rfl

/-- **Which signatures can be presented for another purpose.** -/
theorem signingPurposes_disjoint_iff (fields : EntrySignatureFields)
    (receipt : WitnessReceiptFields) (domain : JSString) (statement : List UInt8) :
    (∀ bytes, buildEntrySigningBytes ENTRY_SIGNATURE_LAYOUT_VERSION fields = some bytes →
      buildDomainStatementBytes domain statement ≠ some bytes)
    ∧ buildDomainStatementBytes domain statement
        ≠ some (buildWitnessSigningBytes receipt WITNESS_RECEIPT_LAYOUT_VERSION)
    ∧ (fields.IsSized → fields.IsShort ENTRY_SIGNATURE_LAYOUT_VERSION → receipt.IsSized →
      receipt.IsShort →
      (buildEntrySigningBytes ENTRY_SIGNATURE_LAYOUT_VERSION fields
          ≠ some (buildWitnessSigningBytes receipt WITNESS_RECEIPT_LAYOUT_VERSION)
        ↔ ¬ ReadsAs receipt.encoded fields.encoded)) := by
  refine ⟨fun bytes hentry hstatement => ?_, fun hstatement => ?_, ?_⟩
  · have hhead := head?_buildEntrySigningBytes hentry
    rw [head?_buildDomainStatementBytes hstatement] at hhead
    exact absurd hhead (by decide)
  · have hhead : (buildWitnessSigningBytes receipt WITNESS_RECEIPT_LAYOUT_VERSION).head?
        = some 0x01 := rfl
    rw [head?_buildDomainStatementBytes hstatement] at hhead
    exact absurd hhead (by decide)
  · intro hsized hshort hsized' hshort'
    rw [← buildEntrySigningBytes_encoded, ← buildWitnessSigningBytes_encoded]
    exact not_congr (buildEntrySigningBytes_eq_buildWitnessSigningBytes_iff hsized.encoded
      hshort.encoded hsized'.encoded hshort'.encoded)

/-- Another entry than the one that was received. -/
theorem signingPurposes_disjoint_iff_plainFields :
    buildEntrySigningBytes ENTRY_SIGNATURE_LAYOUT_VERSION (plainFields "doc_change" "e")
      ≠ some (buildWitnessSigningBytes (plainReceipt 2) WITNESS_RECEIPT_LAYOUT_VERSION) := by
  obtain ⟨-, -, hiff⟩ := signingPurposes_disjoint_iff (plainFields "doc_change" "e")
    (plainReceipt 2) "mindoodb-seal/v1" []
  refine (hiff ⟨by decide, by decide, by decide⟩
    ⟨by decide +kernel, by decide, nofun, nofun, nofun⟩
    ⟨by decide, by decide⟩ (by decide +kernel)).mpr fun h => ?_
  exact absurd h.id (by decide +kernel)

/-! ## A receipt for an entry of a client's choice -/

/-- The string of some ASCII characters. -/
def asciiText (bytes : List UInt8) : JSString := ⟨bytes.map fun byte => Fin.ofNat _ byte.toNat⟩

/-- The document and the key of the entry are chosen by the client; the rest is as it should be. -/
def craftedReceipt : WitnessReceiptFields where
  entryType := "doc_change"
  dbid := "contacts"
  contentHash := "h"
  id := "e"
  docId := asciiText [0, 0, 0, 0, 0, 0, 0, 1, 0, 0, 0, 4]
  decryptionKeyId := asciiText <| pushString "x" ++ pushString "w" ++ ENTRY_PROVENANCE_BLOCK_TAG ::
    (pushString "tt" ++ pushString "b" ++ pushLengthPrefixed (1 :: List.replicate 36 0)
      ++ [0, 0, 0, 26])
  createdAt := 1700000000000
  createdByPublicKey := "k"
  receivedAt := 1700000005000
  receivedByPublicKey := "w"

/-- An entry that the witness never signed as one, with the witness as its author. -/
def craftedFields : EntrySignatureFields where
  entryType := "doc_change"
  id := "contacts"
  docId := "h"
  decryptionKeyId := "e"
  createdAt := 12 * 2 ^ 32
  dependencyIds := [asciiText [0, 0, 0, 67]]
  contentHash := "x"
  createdByPublicKey := "w"
  provenance := some ⟨"tt", "b", plainFields ⟨[]⟩ ⟨[]⟩, some "AAABi8/laAAAAAABawAAAYvP5XuIAAAAAXc="⟩

/-- **The signature of the witness is one of an author.** -/
theorem not_signingPurposes_disjoint :
    (craftedFields.IsSignable ∧ craftedFields.IsShort ENTRY_SIGNATURE_LAYOUT_VERSION)
    ∧ (craftedReceipt.IsSignable ∧ craftedReceipt.IsShort)
    ∧ craftedFields.createdByPublicKey = craftedReceipt.receivedByPublicKey
    ∧ buildEntrySigningBytes ENTRY_SIGNATURE_LAYOUT_VERSION craftedFields
      = some (buildWitnessSigningBytes craftedReceipt WITNESS_RECEIPT_LAYOUT_VERSION) := by
  refine ⟨⟨⟨by decide +kernel, by decide, by decide, by decide⟩,
    ⟨by decide +kernel, by decide, ?_, ?_, nofun⟩⟩,
    ⟨⟨by decide +kernel, by decide, by decide⟩, by decide +kernel⟩, rfl, by decide +kernel⟩
  · rintro p bytes ⟨⟩ hbytes
    exact length_lt_of_all (by decide +kernel) hbytes
  · rintro p bytes ⟨⟩ hbytes
    exact length_lt_of_all (by decide +kernel) hbytes

end MindooDB
