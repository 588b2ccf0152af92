import MindooDB.Signing.EntrySignature

/-!
# Signing/Layout — what is signed can be read back

The bytes of an entry are those of a `TotalFormat`: four strings, then `EntryTail`, in which the first
byte of each optional block tells it from the next one.  A prefix of 32 bits tells nothing of a part
of 2³² bytes (`not_signingBytes_injective`); with shorter parts the bytes bind every field, at every
level of provenance (`signingBytes_injective`).
-/

namespace MindooDB

open ByteFormat EntrySignatureFields JsonText Option TextEncoding

/-! ## The fields that are signed -/

structure SignedProvenance (Fields : Type) where
  sourceTenantId : JSString
  sourceDbId : JSString
  source : Fields
  signature : Option (List UInt8)

/-- **What a signature is to bind**: no attachments and none listed are the same, a signature is its
bytes, and the recipients are their JSON. -/
structure SignedFields where
  entryType : JSString
  id : JSString
  docId : JSString
  decryptionKeyId : JSString
  createdAt : ℤ
  dependencyIds : List JSString
  contentHash : JSString
  createdByPublicKey : JSString
  attachmentRefs : List StoreEntryAttachmentRef
  provenance : Option (SignedProvenance SignedFields)
  recipients : Option JSString

/-- The JSON of the recipients, when there are any. -/
def recipientsText (recipients : Option EntryRecipients) : Option JSString :=
  (recipients.filter fun r => r.wraps.length > 0).map (·.stringify)

def EntrySignatureFields.signed : EntrySignatureFields → SignedFields
  | { entryType, id, docId, decryptionKeyId, createdAt, dependencyIds, contentHash,
      createdByPublicKey, attachmentRefs, provenance, recipients } =>
    { entryType, id, docId, decryptionKeyId, createdAt, dependencyIds, contentHash,
      createdByPublicKey
      attachmentRefs := attachmentRefs.getD []
      provenance := match provenance with
        | none => none
        | some { sourceTenantId, sourceDbId, source, sourceMetadataSignature } =>
          some { sourceTenantId, sourceDbId, source := source.signed
                 signature := EntryProvenance.signatureBytes
                  { sourceTenantId, sourceDbId, source, sourceMetadataSignature } }
      recipients := recipientsText recipients }
termination_by structural fields => fields

/-- A property of the fields of an entry, and of those of its source, and so on. -/
inductive EveryLevel (P : EntrySignatureFields → Prop) : EntrySignatureFields → Prop
  | intro {fields : EntrySignatureFields} (own : P fields)
      (source : ∀ p, fields.provenance = some p → EveryLevel P p.source) : EveryLevel P fields

/-- The strings that are signed, without those of a source. -/
def EntrySignatureFields.strings (fields : EntrySignatureFields) : List JSString :=
  [fields.entryType, fields.id, fields.docId, fields.decryptionKeyId, fields.contentHash,
    fields.createdByPublicKey] ++ fields.dependencyIds
    ++ (fields.attachmentRefs.getD []).flatMap (fun ref => [ref.attachmentId, ref.lastChunkId])
    ++ fields.provenance.toList.flatMap fun p => [p.sourceTenantId, p.sourceDbId]

def IsInt64 (value : ℤ) : Prop := -2 ^ 63 ≤ value ∧ value < 2 ^ 63

instance (value : ℤ) : Decidable (IsInt64 value) := inferInstanceAs (Decidable (_ ∧ _))

/-- Strings of scalar values, integers of 64 bits, and fewer than 2²⁵ attachments. -/
structure EntrySignatureFields.IsSignable (fields : EntrySignatureFields) : Prop where
  strings : ∀ s ∈ fields.strings, IsWellFormed s
  createdAt : IsInt64 fields.createdAt
  sizes : ∀ ref ∈ fields.attachmentRefs.getD [], IsInt64 ref.size
  attachmentRefs : (fields.attachmentRefs.getD []).length < 2 ^ 25

/-- **Every length fits its prefix.** -/
structure EntrySignatureFields.IsShort (version : ℕ) (fields : EntrySignatureFields) : Prop where
  strings : ∀ s ∈ fields.strings, (encode s).length < 2 ^ 32
  dependencyIds : fields.dependencyIds.length < 2 ^ 32
  source : ∀ p bytes, fields.provenance = some p →
    buildEntrySigningBytes version p.source = some bytes → bytes.length < 2 ^ 32
  signature : ∀ p bytes, fields.provenance = some p → p.signatureBytes = some bytes →
    bytes.length < 2 ^ 32
  recipients : ∀ text, recipientsText fields.recipients = some text →
    (encode text).length < 2 ^ 32

/-! ## The layout as a format -/

def attachmentRefFormat : ByteFormat StoreEntryAttachmentRef :=
  ((text 4).pair ((text 4).pair int64)).restrict
    (fun ref => (ref.attachmentId, ref.lastChunkId, ref.size))
    (fun p => some ⟨p.1, p.2.1, p.2.2⟩) (fun _ => True) (fun _ => rfl)
    (fun h => by obtain rfl := some.inj h; exact ⟨trivial, rfl⟩)

/-- Some attachments, so few that their number begins with a byte that is no tag. -/
def attachmentRefsBlock : ByteFormat (List StoreEntryAttachmentRef) :=
  (counted 4 attachmentRefFormat).restrict id
    (fun refs => if refs ≠ [] ∧ refs.length < 2 ^ 25 then some refs else none)
    (fun refs => refs ≠ [] ∧ refs.length < 2 ^ 25) (fun h => if_pos h)
    (fun {refs refs'} h => by
      split_ifs at h with hrefs
      obtain rfl := some.inj h
      exact ⟨hrefs, rfl⟩)

/-- Tenant, database, signing bytes and signature of a source. -/
abbrev ProvenanceLayout := JSString × JSString × List UInt8 × List UInt8

def provenanceBlock : ByteFormat ProvenanceLayout :=
  tagged ENTRY_PROVENANCE_BLOCK_TAG
    ((text 4).pair ((text 4).pair ((lengthPrefixed 4).pair (lengthPrefixed 4))))

def recipientsBlock : ByteFormat JSString := tagged ENTRY_RECIPIENTS_BLOCK_TAG (text 4)

theorem head?_attachmentRefsBlock {refs : List StoreEntryAttachmentRef}
    (h : attachmentRefsBlock.Fits refs) :
    (attachmentRefsBlock.write refs).head?.any (fun byte => byte < 2) = true := by
  have hlength : refs.length < 2 ^ 25 := h.1.2
  change decide (UInt8.ofNat (refs.length / 256 ^ 3) < 2) = true
  rw [decide_eq_true_eq, UInt8.lt_iff_toNat_lt, UInt8.toNat_ofNat']
  change refs.length / 256 ^ 3 % 256 < 2
  omega

abbrev RecipientsPart := Option JSString × Unit

def recipientsPart : TotalFormat RecipientsPart :=
  TotalFormat.optional recipientsBlock TotalFormat.none (fun byte => byte = ENTRY_RECIPIENTS_BLOCK_TAG)
    (fun _ => rfl) (fun _ => rfl)

abbrev ProvenancePart := Option ProvenanceLayout × RecipientsPart

/-- What may stand first in the last block. -/
theorem head?_recipientsPart (part : RecipientsPart) :
    (recipientsPart.write part).head? = none
      ∨ (recipientsPart.write part).head? = some ENTRY_RECIPIENTS_BLOCK_TAG := by
  obtain ⟨block, -⟩ := part
  cases block with
  | none => exact .inl rfl
  | some text => exact .inr rfl

def provenancePart : TotalFormat ProvenancePart :=
  TotalFormat.optional provenanceBlock recipientsPart
    (fun byte => byte = ENTRY_PROVENANCE_BLOCK_TAG) (fun _ => rfl)
    (fun {part} _ => by rcases head?_recipientsPart part with h | h <;> rw [h] <;> rfl)

theorem head?_provenancePart (part : ProvenancePart) :
    (provenancePart.write part).head?.any (fun byte => byte < 2) = false := by
  obtain ⟨block, part⟩ := part
  cases block with
  | none =>
    change (recipientsPart.write part).head?.any _ = false
    rcases head?_recipientsPart part with h | h <;> rw [h] <;> rfl
  | some provenance => rfl

/-- The fields of an entry from the time of its creation on. -/
abbrev EntryTail :=
  ℤ × List JSString × JSString × JSString × Option (List StoreEntryAttachmentRef) × ProvenancePart

def entryTailFormat : TotalFormat EntryTail :=
  .cons int64 <| .cons (counted 4 (text 4)) <| .cons (text 4) <| .cons (text 4) <|
    .optional attachmentRefsBlock provenancePart (fun byte => byte < 2)
      head?_attachmentRefsBlock (fun {part} _ => head?_provenancePart part)

/-- Type, id, document and key, and what follows. -/
abbrev EntryLayout := JSString × JSString × JSString × JSString × EntryTail

def entryFormat : TotalFormat EntryLayout :=
  .cons (text 4) <| .cons (text 4) <| .cons (text 4) <| .cons (text 4) entryTailFormat

/-! ## The layout of an entry -/

namespace EntrySignatureFields

variable (version : ℕ) (fields : EntrySignatureFields)

/-- The provenance block of an entry. -/
def provenanceLayout : Option (Option ProvenanceLayout) :=
  match fields.provenance with
  | none => some none
  | some p =>
    match buildEntrySigningBytes version p.source, p.signatureBytes with
    | some sourceBytes, some signature =>
      some (some (p.sourceTenantId, p.sourceDbId, sourceBytes, signature))
    | _, _ => none

def tail : Option EntryTail :=
  (fields.provenanceLayout version).map fun block =>
    (fields.createdAt, fields.dependencyIds, fields.contentHash, fields.createdByPublicKey,
      fields.attachmentRefs.filter (· ≠ []), block, recipientsText fields.recipients, ())

def layout : Option EntryLayout :=
  (fields.tail version).map fun tail =>
    (fields.entryType, fields.id, fields.docId, fields.decryptionKeyId, tail)

end EntrySignatureFields

theorem write_attachmentRefs (refs : Option (List StoreEntryAttachmentRef)) :
    (refs.filter (· ≠ [])).elim [] attachmentRefsBlock.write = pushAttachmentRefs refs := by
  have href : attachmentRefFormat.write = pushAttachmentRef := by
    funext ref
    exact (List.append_assoc _ _ _).symm
  match refs with
  | none => rfl
  | some [] => rfl
  | some (ref :: refs) =>
    change bigEndian 4 _ ++ (ref :: refs).flatMap attachmentRefFormat.write = _
    rw [href]
    rfl

theorem write_recipients (recipients : Option EntryRecipients) :
    recipientsPart.write (recipientsText recipients, ()) = pushRecipients recipients := by
  cases recipients with
  | none => rfl
  | some r =>
    rw [pushRecipients, recipientsText, Option.filter]
    by_cases h : r.wraps.length > 0
    · rw [if_pos (decide_eq_true h), if_pos h]
      exact List.append_nil _
    · rw [if_neg (by simpa using h), if_neg h]
      rfl

theorem write_provenanceBlock (sourceTenantId sourceDbId : JSString)
    (sourceBytes signature : List UInt8) :
    provenanceBlock.write (sourceTenantId, sourceDbId, sourceBytes, signature) =
      ENTRY_PROVENANCE_BLOCK_TAG :: (pushString sourceTenantId ++ pushString sourceDbId
        ++ pushLengthPrefixed sourceBytes ++ pushLengthPrefixed signature) := by
  rw [List.append_assoc, List.append_assoc]
  rfl

/-- **The bytes of an entry are its layout.** -/
theorem buildEntrySigningBytes_eq (version : ℕ) (fields : EntrySignatureFields) :
    buildEntrySigningBytes version fields =
      (fields.layout version).map fun l => UInt8.ofNat version :: entryFormat.write l := by
  have hwrite : ∀ block : Option ProvenanceLayout,
      entryFormat.write (fields.entryType, fields.id, fields.docId, fields.decryptionKeyId,
        fields.createdAt, fields.dependencyIds, fields.contentHash, fields.createdByPublicKey,
        fields.attachmentRefs.filter (· ≠ []), block, recipientsText fields.recipients, ())
      = pushString fields.entryType ++ pushString fields.id ++ pushString fields.docId
        ++ pushString fields.decryptionKeyId ++ pushInt64BE fields.createdAt
        ++ pushUint32BE fields.dependencyIds.length ++ fields.dependencyIds.flatMap pushString
        ++ pushString fields.contentHash ++ pushString fields.createdByPublicKey
        ++ pushAttachmentRefs fields.attachmentRefs ++ block.elim [] provenanceBlock.write
        ++ pushRecipients fields.recipients := by
    intro block
    rw [← write_attachmentRefs, ← write_recipients]
    simp only [List.append_assoc]
    rfl
  obtain ⟨entryType, id, docId, decryptionKeyId, createdAt, dependencyIds, contentHash,
    createdByPublicKey, attachmentRefs, provenance, recipients⟩ := fields
  rw [buildEntrySigningBytes.eq_def, layout, tail,
    provenanceLayout]
  cases provenance with
  | none => exact congrArg (fun bytes => some (_ :: bytes)) (hwrite none).symm
  | some p =>
    obtain ⟨sourceTenantId, sourceDbId, source, signature⟩ := p
    dsimp only
    cases buildEntrySigningBytes version source with
    | none => rfl
    | some sourceBytes =>
      cases EntryProvenance.signatureBytes ⟨sourceTenantId, sourceDbId, source, signature⟩ with
      | none => rfl
      | some signatureBytes =>
        have hblock := write_provenanceBlock sourceTenantId sourceDbId sourceBytes signatureBytes
        refine congrArg (fun bytes => some (_ :: bytes)) (Eq.trans ?_ (hwrite (some
          (sourceTenantId, sourceDbId, sourceBytes, signatureBytes))).symm)
        rw [elim_some, hblock]
        rfl

/-! ## Different fields have different bytes -/

theorem EntryRecipients.isWellFormed_stringify (r : EntryRecipients) :
    IsWellFormed r.stringify := by
  have hwraps : ∀ t ∈ r.wraps.map (fun wrap => object
      [member "kind" (quote wrap.kind.text),
        member "keyFingerprint" (quote wrap.keyFingerprint),
        member "wrapped" (quote wrap.wrapped)]),
      IsWellFormed t := by
    intro t ht
    obtain ⟨wrap, -, rfl⟩ := List.mem_map.mp ht
    refine isWellFormed_object fun m hm => ?_
    simp only [List.mem_cons, List.not_mem_nil, or_false] at hm
    rcases hm with rfl | rfl | rfl
    all_goals exact isWellFormed_member _ (isWellFormed_quote _)
  refine isWellFormed_object fun m hm => ?_
  rcases List.mem_append.mp hm with hm | hm
  · simp only [List.mem_cons, List.not_mem_nil, or_false] at hm
    rcases hm with rfl | rfl | rfl
    · exact isWellFormed_member _ (isWellFormed_integer _)
    · exact isWellFormed_member _ (isWellFormed_quote _)
    · exact isWellFormed_member _ (isWellFormed_array hwraps)
  · obtain ⟨names, -, rfl⟩ := map_eq_some_iff.mp (mem_toList.mp hm)
    exact isWellFormed_member _ (isWellFormed_quote _)

theorem attachmentRefFormat_fits {ref : StoreEntryAttachmentRef} :
    attachmentRefFormat.Fits ref ↔
      (text 4).Fits ref.attachmentId ∧ (text 4).Fits ref.lastChunkId ∧ IsInt64 ref.size :=
  (and_iff_right trivial).trans (and_congr_right fun _ => and_congr_right fun _ => int64_fits)

namespace EntrySignatureFields

variable {version : ℕ} {fields fields' : EntrySignatureFields}

theorem layout_eq_some_iff {l : EntryLayout} : fields.layout version = some l ↔
    ∃ block, fields.provenanceLayout version = some block ∧
      (fields.entryType, fields.id, fields.docId, fields.decryptionKeyId, fields.createdAt,
        fields.dependencyIds, fields.contentHash, fields.createdByPublicKey,
        fields.attachmentRefs.filter (· ≠ []), block, recipientsText fields.recipients, ()) = l := by
  rw [layout, tail, map_map, map_eq_some_iff]
  rfl

theorem provenanceLayout_eq_some_iff {p : EntryProvenance EntrySignatureFields}
    (hp : fields.provenance = some p) {block : Option ProvenanceLayout} :
    fields.provenanceLayout version = some block ↔ ∃ sourceBytes signature,
      buildEntrySigningBytes version p.source = some sourceBytes ∧
        p.signatureBytes = some signature ∧
        block = some (p.sourceTenantId, p.sourceDbId, sourceBytes, signature) := by
  rw [provenanceLayout, hp]
  dsimp only
  cases buildEntrySigningBytes version p.source <;> cases p.signatureBytes <;> simp [eq_comm]

/-- What fits is laid out so that it can be read back. -/
theorem fits_layout (hsignable : fields.IsSignable) (hshort : fields.IsShort version)
    {l : EntryLayout} (h : fields.layout version = some l) : entryFormat.Fits l := by
  obtain ⟨block, hblock, rfl⟩ := layout_eq_some_iff.mp h
  have htext : ∀ s ∈ fields.strings, (text 4).Fits s := fun s hs =>
    text_fits.mpr ⟨hsignable.strings s hs, hshort.strings s hs⟩
  have hown : ∀ s, s ∈ [fields.entryType, fields.id, fields.docId, fields.decryptionKeyId,
      fields.contentHash, fields.createdByPublicKey] → (text 4).Fits s := fun s hs =>
    htext s (by simp only [strings, List.append_assoc]; exact List.mem_append_left _ hs)
  have hdeps : (counted 4 (text 4)).Fits fields.dependencyIds :=
    counted_fits.mpr ⟨hshort.dependencyIds, fun s hs => htext s (by simp [strings, hs])⟩
  have hrefs : ∀ refs, fields.attachmentRefs.filter (· ≠ []) = some refs →
      attachmentRefsBlock.Fits refs := by
    intro refs hrefs
    obtain ⟨hsome, hne⟩ := filter_eq_some_iff.mp hrefs
    have hget : fields.attachmentRefs.getD [] = refs := by rw [hsome]; rfl
    have hfew : refs.length < 2 ^ 25 := hget ▸ hsignable.attachmentRefs
    refine ⟨⟨of_decide_eq_true hne, hfew⟩, counted_fits.mpr ⟨?_, fun ref href => ?_⟩⟩
    · exact lt_trans hfew (by decide)
    · have hstrings : ∀ s ∈ [ref.attachmentId, ref.lastChunkId], s ∈ fields.strings := by
        intro s hs
        simp only [strings, hget, List.mem_append, List.mem_flatMap]
        exact .inl (.inr ⟨ref, href, hs⟩)
      exact attachmentRefFormat_fits.mpr ⟨htext _ (hstrings _ (by simp)),
        htext _ (hstrings _ (by simp)), hsignable.sizes ref (hget.symm ▸ href)⟩
  have hprovenance : ∀ p, block = some p → provenanceBlock.Fits p := by
    rintro ⟨tenantId, dbId, sourceBytes, signature⟩ rfl
    cases hp : fields.provenance with
    | none =>
      rw [provenanceLayout, hp] at hblock
      exact nomatch hblock
    | some p =>
      obtain ⟨sourceBytes', signature', hsource, hsignature, heq⟩ :=
        (provenanceLayout_eq_some_iff hp).mp hblock
      cases heq
      have hstrings : ∀ s ∈ [p.sourceTenantId, p.sourceDbId], s ∈ fields.strings := by
        intro s hs
        simp only [strings, hp, List.mem_append, List.mem_flatMap]
        exact .inr ⟨p, by simp, hs⟩
      exact ⟨htext _ (hstrings _ (by simp)), htext _ (hstrings _ (by simp)),
        lengthPrefixed_fits.mpr (hshort.source p _ hp hsource),
        lengthPrefixed_fits.mpr (hshort.signature p _ hp hsignature)⟩
  have hrecipients : ∀ t, recipientsText fields.recipients = some t → (text 4).Fits t := by
    intro t ht
    obtain ⟨r, -, rfl⟩ := map_eq_some_iff.mp ht
    exact text_fits.mpr ⟨r.isWellFormed_stringify, hshort.recipients _ ht⟩
  exact ⟨hown _ (by simp), hown _ (by simp), hown _ (by simp), hown _ (by simp),
    int64_fits.mpr hsignable.createdAt, hdeps, hown _ (by simp), hown _ (by simp), hrefs,
    hprovenance, hrecipients, trivial⟩

theorem signed_eq : fields.signed =
    { entryType := fields.entryType, id := fields.id, docId := fields.docId
      decryptionKeyId := fields.decryptionKeyId, createdAt := fields.createdAt
      dependencyIds := fields.dependencyIds, contentHash := fields.contentHash
      createdByPublicKey := fields.createdByPublicKey
      attachmentRefs := fields.attachmentRefs.getD []
      provenance := fields.provenance.map fun p =>
        { sourceTenantId := p.sourceTenantId, sourceDbId := p.sourceDbId
          source := p.source.signed, signature := p.signatureBytes }
      recipients := recipientsText fields.recipients } := by
  obtain ⟨entryType, id, docId, decryptionKeyId, createdAt, dependencyIds, contentHash,
    createdByPublicKey, attachmentRefs, provenance, recipients⟩ := fields
  cases provenance <;> rfl

/-- The attachments are known from the block that lists them. -/
theorem getD_of_filter_eq {refs refs' : Option (List StoreEntryAttachmentRef)}
    (h : refs.filter (· ≠ []) = refs'.filter (· ≠ [])) : refs.getD [] = refs'.getD [] := by
  have hblock : ∀ r : Option (List StoreEntryAttachmentRef),
      r.getD [] = (r.filter (· ≠ [])).getD [] := by
    intro r
    match r with
    | none => rfl
    | some [] => rfl
    | some (ref :: refs) => rfl
  rw [hblock, h, ← hblock]

/-- **The bytes of an entry bind its fields, and those of its source, and so on.** -/
theorem signed_eq_of_bytes_eq (hfits : EveryLevel (fun f => f.IsSignable ∧ f.IsShort version) fields)
    (hfits' : EveryLevel (fun f => f.IsSignable ∧ f.IsShort version) fields')
    {bytes : List UInt8} (hbytes : buildEntrySigningBytes version fields = some bytes)
    (hbytes' : buildEntrySigningBytes version fields' = some bytes) :
    fields.signed = fields'.signed := by
  induction hfits generalizing fields' bytes with
  | @intro fields own source ih =>
    obtain ⟨own', source'⟩ := hfits'
    rw [buildEntrySigningBytes_eq] at hbytes hbytes'
    obtain ⟨l, hl, rfl⟩ := map_eq_some_iff.mp hbytes
    obtain ⟨l', hl', hsame⟩ := map_eq_some_iff.mp hbytes'
    obtain rfl := entryFormat.write_injective (fits_layout own'.1 own'.2 hl')
      (fits_layout own.1 own.2 hl) (List.cons_injective hsame)
    obtain ⟨block, hblock, rfl⟩ := layout_eq_some_iff.mp hl
    obtain ⟨block', hblock', heq⟩ := layout_eq_some_iff.mp hl'
    simp only [Prod.mk.injEq] at heq
    obtain ⟨hentryType, hid, hdocId, hkeyId, hcreatedAt, hdeps, hcontentHash, hkey, hrefs, rfl,
      hrecipients, -⟩ := heq
    have hprovenance : fields.provenance.map (fun p => (⟨p.sourceTenantId, p.sourceDbId,
          p.source.signed, p.signatureBytes⟩ : SignedProvenance SignedFields))
        = fields'.provenance.map fun p => ⟨p.sourceTenantId, p.sourceDbId, p.source.signed,
          p.signatureBytes⟩ := by
      cases hp : fields.provenance with
      | none =>
        cases hp' : fields'.provenance with
        | none => rfl
        | some p' =>
          obtain ⟨sourceBytes, signature, -, -, rfl⟩ := (provenanceLayout_eq_some_iff hp').mp hblock'
          rw [provenanceLayout, hp] at hblock
          exact nomatch hblock
      | some p =>
        obtain ⟨sourceBytes, signature, hsource, hsignature, rfl⟩ :=
          (provenanceLayout_eq_some_iff hp).mp hblock
        cases hp' : fields'.provenance with
        | none =>
          rw [provenanceLayout, hp'] at hblock'
          exact nomatch hblock'
        | some p' =>
          obtain ⟨sourceBytes', signature', hsource', hsignature', heq'⟩ :=
            (provenanceLayout_eq_some_iff hp').mp hblock'
          simp only [Option.some.injEq, Prod.mk.injEq] at heq'
          obtain ⟨htenant, hdb, rfl, rfl⟩ := heq'
          have hsigned := ih p hp (source' p' hp') hsource hsource'
          rw [map_some, map_some, htenant, hdb, hsigned, hsignature, hsignature']
    rw [signed_eq, signed_eq, hprovenance, hentryType, hid, hdocId, hkeyId, hcreatedAt, hdeps,
      hcontentHash, hkey, getD_of_filter_eq hrefs, hrecipients]

end EntrySignatureFields

/-! ## Receipts -/

namespace WitnessReceiptFields

variable (fields : WitnessReceiptFields)

def strings : List JSString :=
  [fields.entryType, fields.dbid, fields.contentHash, fields.id, fields.docId,
    fields.decryptionKeyId, fields.createdByPublicKey, fields.receivedByPublicKey]

/-- Strings of scalar values, and times of 64 bits. -/
structure IsSignable : Prop where
  strings : ∀ s ∈ fields.strings, IsWellFormed s
  createdAt : IsInt64 fields.createdAt
  receivedAt : IsInt64 fields.receivedAt

def IsShort : Prop := ∀ s ∈ fields.strings, (encode s).length < 2 ^ 32

instance : Decidable fields.IsShort :=
  inferInstanceAs (Decidable (∀ s ∈ fields.strings, (encode s).length < 2 ^ 32))

/-- The fields of a receipt from the document on. -/
abbrev Tail := JSString × JSString × ℤ × JSString × ℤ × JSString × Unit

def tail : Tail :=
  (fields.docId, fields.decryptionKeyId, fields.createdAt, fields.createdByPublicKey,
    fields.receivedAt, fields.receivedByPublicKey, ())

def tailFormat : TotalFormat Tail :=
  .cons (text 4) <| .cons (text 4) <| .cons int64 <| .cons (text 4) <| .cons int64 <|
    .cons (text 4) .none

/-- Type, database, hash and id, and what follows. -/
abbrev Layout := JSString × JSString × JSString × JSString × Tail

def layout : Layout :=
  (fields.entryType, fields.dbid, fields.contentHash, fields.id, fields.tail)

def format : TotalFormat Layout :=
  .cons (text 4) <| .cons (text 4) <| .cons (text 4) <| .cons (text 4) tailFormat

variable {fields} {fields' : WitnessReceiptFields}

theorem buildWitnessSigningBytes_eq (version : ℕ) :
    buildWitnessSigningBytes fields version =
      UInt8.ofNat version :: format.write fields.layout := by
  rw [buildWitnessSigningBytes]
  simp only [List.append_assoc]
  refine congrArg (List.cons _) ?_
  change _ = pushString fields.entryType ++ (pushString fields.dbid ++ (pushString fields.contentHash
    ++ (pushString fields.id ++ (pushString fields.docId ++ (pushString fields.decryptionKeyId
    ++ (pushInt64BE fields.createdAt ++ (pushString fields.createdByPublicKey
    ++ (pushInt64BE fields.receivedAt ++ (pushString fields.receivedByPublicKey ++ [])))))))))
  rw [List.append_nil]

theorem fits_layout (hsignable : fields.IsSignable) (hshort : fields.IsShort) :
    format.Fits fields.layout := by
  have htext : ∀ s ∈ fields.strings, (text 4).Fits s := fun s hs =>
    text_fits.mpr ⟨hsignable.strings s hs, hshort s hs⟩
  simp only [strings, List.forall_mem_cons] at htext
  obtain ⟨hentryType, hdbid, hcontentHash, hid, hdocId, hkeyId, hcreatedBy, hreceivedBy, -⟩ := htext
  exact ⟨hentryType, hdbid, hcontentHash, hid, hdocId, hkeyId, int64_fits.mpr hsignable.createdAt,
    hcreatedBy, int64_fits.mpr hsignable.receivedAt, hreceivedBy, trivial⟩

/-- **The bytes of a receipt bind its fields.** -/
theorem eq_of_bytes_eq {version : ℕ} (hsignable : fields.IsSignable) (hshort : fields.IsShort)
    (hsignable' : fields'.IsSignable) (hshort' : fields'.IsShort)
    (h : buildWitnessSigningBytes fields version = buildWitnessSigningBytes fields' version) :
    fields = fields' := by
  rw [buildWitnessSigningBytes_eq, buildWitnessSigningBytes_eq] at h
  have hlayout := format.write_injective (fits_layout hsignable hshort)
    (fits_layout hsignable' hshort') (List.cons_injective h)
  simp only [layout, tail, Prod.mk.injEq] at hlayout
  obtain ⟨entryType, dbid, contentHash, id, docId, decryptionKeyId, createdAt, createdByPublicKey,
    receivedAt, receivedByPublicKey⟩ := fields
  obtain ⟨rfl, rfl, rfl, rfl, rfl, rfl, rfl, rfl, rfl, rfl, -⟩ := hlayout
  rfl

end WitnessReceiptFields

/-! ## The result -/

/-- **Signatures bind every field**, as long as no part outgrows its length prefix. -/
theorem signingBytes_injective (version : ℕ) :
    (∀ (fields fields' : EntrySignatureFields) (bytes : List UInt8),
      EveryLevel (fun f => f.IsSignable ∧ f.IsShort version) fields →
      EveryLevel (fun f => f.IsSignable ∧ f.IsShort version) fields' →
      buildEntrySigningBytes version fields = some bytes →
      buildEntrySigningBytes version fields' = some bytes → fields.signed = fields'.signed)
    ∧ ∀ fields fields' : WitnessReceiptFields, fields.IsSignable → fields.IsShort →
      fields'.IsSignable → fields'.IsShort →
      buildWitnessSigningBytes fields version = buildWitnessSigningBytes fields' version →
      fields = fields' := by
  constructor
  · intro fields fields' bytes hfits hfits'
    exact signed_eq_of_bytes_eq hfits hfits'
  · intro fields fields' hsignable hshort hsignable' hshort'
    exact WitnessReceiptFields.eq_of_bytes_eq hsignable hshort hsignable' hshort'

/-- An entry without attachments, provenance and recipients. -/
def plainFields (entryType id : JSString) : EntrySignatureFields where
  entryType := entryType
  id := id
  docId := ⟨[]⟩
  decryptionKeyId := ⟨[]⟩
  createdAt := 0
  dependencyIds := []
  contentHash := ⟨[]⟩
  createdByPublicKey := ⟨[]⟩

/-- So many times U+0000. -/
def nulls (n : ℕ) : JSString := ⟨List.replicate n 0⟩

theorem encode_nulls (n : ℕ) : encode (nulls n) = List.replicate n 0 := by
  induction n with
  | zero => rfl
  | succ n ih =>
    have hzero : (0 : Fin 65536).val < 0xD800 ∨ 0xE000 ≤ (0 : Fin 65536).val := .inl (by decide)
    have hunit := scalarValues_unit hzero (List.replicate n 0)
    rw [encode, nulls, List.replicate_succ, hunit, List.flatMap_cons]
    exact congrArg (List.cons 0) ih

/-- A length of which the prefix keeps nothing. -/
theorem pushString_nulls {n : ℕ} (h : bigEndian 4 n = List.replicate 4 0) :
    pushString (nulls n) = List.replicate (4 + n) 0 := by
  rw [pushString, pushLengthPrefixed, encode_nulls, List.length_replicate, h,
    List.replicate_append_replicate]

theorem everyLevel_plainFields {entryType id : JSString}
    (hentryType : IsWellFormed entryType) (hid : IsWellFormed id) :
    EveryLevel IsSignable (plainFields entryType id) := by
  refine .intro ⟨?_, (by decide : IsInt64 0), nofun, (by decide : 0 < 2 ^ 25)⟩ nofun
  refine List.forall_mem_cons.mpr ⟨hentryType, List.forall_mem_cons.mpr ⟨hid, ?_⟩⟩
  exact (by decide : ∀ s ∈ List.replicate 4 (⟨[]⟩ : JSString), IsWellFormed s)

/-- The type and the id, one after the other, and zeros. -/
theorem buildEntrySigningBytes_plainFields (entryType id : JSString) :
    buildEntrySigningBytes 1 (plainFields entryType id) =
      some (1 :: (pushString entryType ++ pushString id ++ List.replicate 28 0)) := by
  change some (1 :: (((((((((pushString entryType ++ pushString id ++ _) ++ _) ++ _) ++ _) ++ _) ++ _)
    ++ _) ++ _) ++ _ ++ _)) = _
  simp only [List.append_assoc]
  rfl

/-- **Four gigabytes of zeros fit into the type as into the id**, and the bytes are the same. -/
theorem not_signingBytes_injective :
    ¬ ∀ (fields fields' : EntrySignatureFields) (bytes : List UInt8),
      EveryLevel IsSignable fields →
      EveryLevel IsSignable fields' →
      buildEntrySigningBytes 1 fields = some bytes →
      buildEntrySigningBytes 1 fields' = some bytes → fields.signed = fields'.signed := by
  obtain ⟨n, hn, hpos⟩ : ∃ n, bigEndian 4 n = List.replicate 4 0 ∧ n ≠ 0 :=
    ⟨2 ^ 32, by decide +kernel, by decide⟩
  have hnulls : IsWellFormed (nulls n) :=
    isWellFormed_of_forall fun unit hunit => by
      rw [List.eq_of_mem_replicate hunit]
      exact Or.inl (by decide)
  have hbytes : ∀ m k, bigEndian 4 m = List.replicate 4 0 → bigEndian 4 k = List.replicate 4 0 →
      buildEntrySigningBytes 1 (plainFields (nulls m) (nulls k)) =
        some (1 :: List.replicate (4 + m + (4 + k) + 28) 0) := by
    intro m k hm hk
    rw [buildEntrySigningBytes_plainFields, pushString_nulls hm, pushString_nulls hk,
      List.replicate_append_replicate, List.replicate_append_replicate]
  intro h
  have hswap : 4 + 0 + (4 + n) + 28 = 4 + n + (4 + 0) + 28 := by omega
  have hsigned := h (plainFields (nulls n) (nulls 0)) (plainFields (nulls 0) (nulls n)) _
    (everyLevel_plainFields hnulls isWellFormed_nil)
    (everyLevel_plainFields isWellFormed_nil hnulls) (hbytes n 0 hn rfl)
    (hswap ▸ hbytes 0 n rfl hn)
  have htype : nulls n = nulls 0 := congrArg (·.entryType) hsigned
  have hlength := congrArg JSString.length htype
  rw [JSString.length, JSString.length, nulls, nulls, List.length_replicate,
    List.length_replicate] at hlength
  exact hpos hlength

/-- A copy of such an entry, with an attachment and a recipient. -/
def copiedFields (sourceId : JSString) : EntrySignatureFields where
  entryType := "doc_change"
  id := "e"
  docId := "d"
  decryptionKeyId := "$sealed:d"
  createdAt := -1
  dependencyIds := ["e"]
  contentHash := "h"
  createdByPublicKey := "k"
  attachmentRefs := some [⟨"a", "c", 7⟩]
  provenance := some ⟨"t", "b", plainFields "doc_create" sourceId, some "AQID"⟩
  recipients := some ⟨1, "b", [⟨.user, "f", "w"⟩], none⟩

theorem length_lt_of_all {bytes? : Option (List UInt8)} {n : ℕ}
    (h : (bytes?.all fun bytes => bytes.length < n) = true) {bytes : List UInt8}
    (hbytes : bytes? = some bytes) : bytes.length < n := by
  rw [hbytes] at h
  exact of_decide_eq_true h

theorem everyLevel_copiedFields {sourceId : JSString} (hsource : sourceId ∈ [("e" : JSString), "f"]) :
    EveryLevel (fun f => f.IsSignable ∧ f.IsShort 1) (copiedFields sourceId) := by
  have hplain : (plainFields "doc_create" sourceId).IsSignable := by
    rcases List.mem_pair.mp hsource with rfl | rfl
    all_goals exact ⟨by decide +kernel, by decide, by decide, by decide⟩
  have hplain' : (plainFields "doc_create" sourceId).IsShort 1 := by
    rcases List.mem_pair.mp hsource with rfl | rfl
    all_goals exact ⟨by decide +kernel, by decide, nofun, nofun, nofun⟩
  have hcopied : (copiedFields sourceId).IsSignable := by
    rcases List.mem_pair.mp hsource with rfl | rfl
    all_goals exact ⟨by decide +kernel, by decide, by decide, by decide⟩
  have hcopied' : (copiedFields sourceId).IsShort 1 := by
    refine ⟨?_, (by decide : 1 < 2 ^ 32), ?_, ?_, ?_⟩
    · rcases List.mem_pair.mp hsource with rfl | rfl <;> decide +kernel
    · rintro p bytes ⟨⟩ hbytes
      refine length_lt_of_all ?_ hbytes
      rcases List.mem_pair.mp hsource with rfl | rfl <;> decide +kernel
    · rintro p bytes ⟨⟩ hbytes
      have hthree : Base64.atob "AQID" = some [1, 2, 3] := by decide
      have hall : ((Base64.atob "AQID").all fun bytes => bytes.length < 2 ^ 32) = true := by
        rw [hthree]
        rfl
      exact length_lt_of_all hall hbytes
    · rintro t ⟨⟩
      decide +kernel
  refine .intro ⟨hcopied, hcopied'⟩ ?_
  rintro p ⟨⟩
  exact .intro ⟨hplain, hplain'⟩ nofun

/-- A receipt for an entry. -/
def plainReceipt (receivedAt : ℤ) : WitnessReceiptFields where
  entryType := "doc_change"
  dbid := "contacts"
  contentHash := "h"
  id := "e"
  docId := "d"
  decryptionKeyId := "default"
  createdAt := 1
  createdByPublicKey := "k"
  receivedAt := receivedAt
  receivedByPublicKey := "w"

/-- Another source, or another time of receipt. -/
theorem signingBytes_injective_copiedFields :
    buildEntrySigningBytes 1 (copiedFields "e") ≠ buildEntrySigningBytes 1 (copiedFields "f")
    ∧ buildWitnessSigningBytes (plainReceipt 2) 1 ≠ buildWitnessSigningBytes (plainReceipt 3) 1 := by
  obtain ⟨hentry, hreceipt⟩ := signingBytes_injective 1
  constructor
  · intro heq
    have hsome : (buildEntrySigningBytes 1 (copiedFields "e")).isSome := by decide +kernel
    obtain ⟨bytes, hbytes⟩ := isSome_iff_exists.mp hsome
    have hsigned := hentry _ _ bytes (everyLevel_copiedFields (by simp))
      (everyLevel_copiedFields (by simp)) hbytes (heq ▸ hbytes)
    have hid : (("e" : JSString) = "f") := by
      have := congrArg (fun f => f.provenance.map fun p => p.source.id) hsigned
      exact some.inj this
    exact absurd hid (by decide)
  · intro heq
    have hsame := hreceipt _ _ ⟨by decide +kernel, by decide, by decide⟩ (by decide +kernel)
      ⟨by decide +kernel, by decide, by decide⟩ (by decide +kernel) heq
    exact absurd (congrArg (·.receivedAt) hsame) (by decide)

end MindooDB
