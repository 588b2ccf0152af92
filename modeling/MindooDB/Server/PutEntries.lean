import MindooDB.Server.Entry
import MindooDB.Server.Types

/-!
# Server/PutEntries — what a server stores of what a client pushes

`handlePutEntries` of `ServerNetworkContentAddressedStore.ts`: signature-class failures reject one
entry, denials the whole call.  What the server asks of others in a call (the token, the denylists,
the rules, the witness) is a `PutContext`.  Of what comes to be stored, the bytes have their hash and
the signature is that of a trusted key (`authentic_of_handlePutEntries`).
-/

namespace MindooDB

/-- WebCrypto; `canImport` says whether a PEM is a key. -/
structure EntryCrypto where
  computeContentHash : List UInt8 → JSString
  canImport : JSString → Bool
  verify : JSString → List UInt8 → List UInt8 → Bool

structure StampedReceipt where
  receivedAt : ℤ
  receivedByPublicKey : JSString
  receivedDateSignature : List UInt8
  receiptScheme : JSString

/-- `none` of `stamp` is an exception. -/
structure TimestampProvider where
  issuerPublicKey : Option JSString
  stamp : SyncEntryMetadata → Option StampedReceipt

/-- What a call is told by others. -/
structure PutContext where
  tokenPayload : Except Thrown NetworkAuthTokenPayload
  hasWipeGrantDocIdResolver : Bool := false
  revokedKeyIds : Option (List JSString) := none
  purgedDocIds : Option (List JSString) := none
  receivedAt : ℤ
  /-- `getRequireMetadataSignatureSince`, not asked for the directory store. -/
  cutoff : Option ℤ := none
  evaluateUserdirectoryInvariant : SyncEntry → Option JSString := fun _ => none
  /-- The reason of a denial. -/
  tier1Denial : SyncEntry → Option JSString := fun _ => none
  timestampProvider : Option TimestampProvider := none

structure RejectedPutEntry where
  id : JSString
  reason : JSString
  deriving DecidableEq

structure PutEntriesAck where
  receipts : List SyncEntryMetadata
  rejected : List RejectedPutEntry

/-- `{ ...entry, ...stamp }`. -/
def SyncEntry.witnessed (entry : SyncEntry) (stamp : StampedReceipt) : SyncEntry :=
  { entry with
    receivedAt := some stamp.receivedAt
    receivedByPublicKey := some stamp.receivedByPublicKey
    receivedDateSignature := some stamp.receivedDateSignature
    receiptScheme := some stamp.receiptScheme }

variable (crypto : EntryCrypto) (validatePublicSigningKey : JSString → Bool)

/-- `none` is an exception. -/
def verifyEntrySignatureCrypto (entry : SyncEntryMetadata) (encryptedData : List UInt8)
    (authorPublicKeyPem : JSString) (requireMetadataSignature : Bool) : Option Bool :=
  if !crypto.canImport authorPublicKeyPem then none
  else
    match entry.metadataSignature with
    | some metadataSignature =>
      (buildEntrySigningBytes ENTRY_SIGNATURE_LAYOUT_VERSION (entrySignatureFieldsFromEntry entry)).map
        fun bytes => crypto.verify authorPublicKeyPem metadataSignature bytes
    | none =>
      if requireMetadataSignature then some false
      else some (crypto.verify authorPublicKeyPem entry.signature encryptedData)

/-- What a call has gathered. -/
structure PutProgress where
  toStore : List SyncEntry := []
  stampedMetadata : List SyncEntryMetadata := []
  rejected : List RejectedPutEntry := []

namespace PutProgress

/-- An entry is refused, with a reason. -/
def rejectEntry (progress : PutProgress) (id reason : JSString) : PutProgress :=
  { progress with rejected := progress.rejected ++ [⟨id, reason⟩] }

def accept (progress : PutProgress) (entry : SyncEntry) : PutProgress :=
  { progress with
    toStore := progress.toStore ++ [entry]
    stampedMetadata := progress.stampedMetadata ++ [entry.toSyncEntryMetadata] }

end PutProgress

def accessDenied {α : Type} (message : JSString) : Except Thrown α :=
  .error (.network ⟨.accessDenied, message⟩)

/-- The entry with its receipt, if it gets one. -/
def stampEntry (ctx : PutContext) (entry : SyncEntry) : Except Thrown SyncEntry :=
  match ctx.timestampProvider with
  | none => .ok entry
  | some provider =>
    if entry.entryVersion.isSome && provider.issuerPublicKey ≠ some entry.createdByPublicKey then
      match provider.stamp entry.toSyncEntryMetadata with
      | none => .error .error
      | some stamp => .ok (entry.witnessed stamp)
    else .ok entry

/-- An entry that the store does not hold. -/
def judgeEntry (ctx : PutContext) (requireMetadataSignature : Bool) (progress : PutProgress)
    (entry : SyncEntry) : Except Thrown PutProgress :=
  if !validatePublicSigningKey entry.createdByPublicKey then
    .ok (progress.rejectEntry entry.id
      (("Entry " : JSString) ++ entry.id ++ (" was not signed by a trusted user" : JSString)))
  else if crypto.computeContentHash entry.encryptedData ≠ entry.contentHash then
    .ok (progress.rejectEntry entry.id
      (("Entry " : JSString) ++ entry.id ++ (" content hash does not match its payload" : JSString)))
  else if requireMetadataSignature && entry.metadataSignature.isNone then
    .ok (progress.rejectEntry entry.id (("Entry " : JSString) ++ entry.id
      ++ (" must carry a v2 metadata signature (tenant requires v2 as of the configured cutoff)"
        : JSString)))
  else
    match verifyEntrySignatureCrypto crypto entry.toSyncEntryMetadata entry.encryptedData
      entry.createdByPublicKey requireMetadataSignature with
    | none => .error .error
    | some false =>
      .ok (progress.rejectEntry entry.id
        (("Entry " : JSString) ++ entry.id ++ (" has an invalid author signature" : JSString)))
    | some true =>
      match ctx.evaluateUserdirectoryInvariant entry, ctx.tier1Denial entry with
      | some denied, _ => accessDenied denied
      | none, some reason => accessDenied
          (("Entry " : JSString) ++ entry.id ++ (" denied by Tier 1 policy: " : JSString) ++ reason)
      | none, none => (stampEntry ctx entry).map progress.accept

/-- The loop body of `handlePutEntries`. -/
def putStep (store : SyncStore) (ctx : PutContext) (requireMetadataSignature : Bool)
    (progress : PutProgress) (entry : SyncEntry) : Except Thrown PutProgress :=
  if ctx.revokedKeyIds.any fun ids => !entry.decryptionKeyId.isEmpty && entry.decryptionKeyId ∈ ids then
    accessDenied (("Entry " : JSString) ++ entry.id
      ++ (" carries a revoked decryptionKeyId and may not be pushed" : JSString))
  else if ctx.purgedDocIds.any fun ids => !entry.docId.isEmpty && entry.docId ∈ ids then
    accessDenied (("Entry " : JSString) ++ entry.id
      ++ (" belongs to a purged document and may not be pushed" : JSString))
  else
    match store.getEntryMetadata entry.id with
    | some stored => .ok { progress with stampedMetadata := progress.stampedMetadata ++ [stored] }
    | none => judgeEntry crypto validatePublicSigningKey ctx requireMetadataSignature progress entry

/-- **Each entry is stored or refused.** -/
def handlePutEntries (store : SyncStore) (ctx : PutContext) (entries : List SyncEntry) :
    Except Thrown (SyncStore × PutEntriesAck) :=
  ctx.tokenPayload.bind fun tokenPayload =>
    if tokenPayload.wipe && ctx.hasWipeGrantDocIdResolver then
      accessDenied "Device is targeted for remote wipe and may not push entries"
    else
      let requireMetadataSignature := ctx.cutoff.any fun cutoff => ctx.receivedAt ≥ cutoff
      (entries.foldlM (putStep crypto validatePublicSigningKey store ctx requireMetadataSignature)
        {}).map fun progress =>
          (store.putEntries progress.toStore, ⟨progress.stampedMetadata, progress.rejected⟩)

/-! ## What comes to be stored -/

/-- **What a server demands of an entry**: its bytes have its hash, and a key that the directory
trusts signed it. -/
def Authentic (metadata : SyncEntryMetadata) (encryptedData : List UInt8) : Prop :=
  crypto.computeContentHash encryptedData = metadata.contentHash
    ∧ validatePublicSigningKey metadata.createdByPublicKey = true
    ∧ verifyEntrySignatureCrypto crypto metadata encryptedData metadata.createdByPublicKey false
      = some true

variable {crypto validatePublicSigningKey}

variable {encryptedData : List UInt8}

/-- The floor refuses more, and accepts nothing else. -/
theorem verifyEntrySignatureCrypto_of_require {entry : SyncEntryMetadata}
    {key : JSString} {requireMetadataSignature : Bool}
    (h : verifyEntrySignatureCrypto crypto entry encryptedData key requireMetadataSignature
      = some true) :
    verifyEntrySignatureCrypto crypto entry encryptedData key false = some true := by
  revert h
  rw [verifyEntrySignatureCrypto, verifyEntrySignatureCrypto]
  cases entry.metadataSignature with
  | some metadataSignature => exact id
  | none => cases requireMetadataSignature <;> simp

theorem authentic_withReceiptOrder {metadata : SyncEntryMetadata} {n : ℤ} :
    Authentic crypto validatePublicSigningKey (metadata.withReceiptOrder n) encryptedData
      ↔ Authentic crypto validatePublicSigningKey metadata encryptedData := Iff.rfl

theorem stampEntry_spec {ctx : PutContext} {entry stamped : SyncEntry}
    (h : stampEntry ctx entry = .ok stamped) :
    stamped = entry ∨ ∃ stamp, stamped = entry.witnessed stamp := by
  revert h
  rw [stampEntry]
  split
  · exact fun h => .inl (Except.ok.inj h).symm
  · split
    · split
      · exact nofun
      · exact fun h => .inr ⟨_, (Except.ok.inj h).symm⟩
    · exact fun h => .inl (Except.ok.inj h).symm

variable {ctx : PutContext} {requireMetadataSignature : Bool} {progress progress' : PutProgress}
  {entry : SyncEntry} {store : SyncStore}

/-- **An entry is kept only when it is authentic.** -/
theorem toStore_judgeEntry (h : judgeEntry crypto validatePublicSigningKey ctx
      requireMetadataSignature progress entry = .ok progress') :
    progress'.toStore = progress.toStore
      ∨ ∃ kept : SyncEntry, progress'.toStore = progress.toStore ++ [kept]
        ∧ Authentic crypto validatePublicSigningKey kept.toSyncEntryMetadata kept.encryptedData := by
  revert h
  rw [judgeEntry]
  split
  · exact fun h => Except.ok.inj h ▸ .inl rfl
  rename_i htrusted
  split
  · exact fun h => Except.ok.inj h ▸ .inl rfl
  rename_i hhash
  split
  · exact fun h => Except.ok.inj h ▸ .inl rfl
  split
  · exact nofun
  · exact fun h => Except.ok.inj h ▸ .inl rfl
  rename_i hverify
  have hauthentic : Authentic crypto validatePublicSigningKey entry.toSyncEntryMetadata
      entry.encryptedData :=
    ⟨not_not.mp hhash, by simpa using htrusted, verifyEntrySignatureCrypto_of_require hverify⟩
  split
  · exact nofun
  · exact nofun
  · intro h
    rcases hstamp : stampEntry ctx entry with _ | stamped
    · rw [hstamp] at h
      exact nomatch h
    · rw [hstamp] at h
      refine .inr ⟨stamped, (congrArg PutProgress.toStore (Except.ok.inj h)).symm, ?_⟩
      rcases stampEntry_spec hstamp with rfl | ⟨stamp, rfl⟩
      · exact hauthentic
      · exact hauthentic

theorem authentic_putStep
    (hkept : ∀ kept ∈ progress.toStore,
      Authentic crypto validatePublicSigningKey kept.toSyncEntryMetadata kept.encryptedData)
    (h : putStep crypto validatePublicSigningKey store ctx requireMetadataSignature progress entry
      = .ok progress') :
    ∀ kept ∈ progress'.toStore,
      Authentic crypto validatePublicSigningKey kept.toSyncEntryMetadata kept.encryptedData := by
  revert h
  rw [putStep]
  split
  · exact nofun
  split
  · exact nofun
  split
  · exact fun h => Except.ok.inj h ▸ hkept
  · intro h
    rcases toStore_judgeEntry h with hsame | ⟨kept, hadd, hauthentic⟩
    · rwa [hsame]
    · rw [hadd, List.forall_mem_append]
      exact ⟨hkept, by simpa using hauthentic⟩

theorem authentic_foldlM {entries : List SyncEntry}
    (hkept : ∀ kept ∈ progress.toStore,
      Authentic crypto validatePublicSigningKey kept.toSyncEntryMetadata kept.encryptedData)
    (h : entries.foldlM (putStep crypto validatePublicSigningKey store ctx requireMetadataSignature)
      progress = .ok progress') :
    ∀ kept ∈ progress'.toStore,
      Authentic crypto validatePublicSigningKey kept.toSyncEntryMetadata kept.encryptedData := by
  induction entries generalizing progress with
  | nil => exact Except.ok.inj h ▸ hkept
  | cons entry entries ih =>
    rw [List.foldlM_cons] at h
    rcases hstep : putStep crypto validatePublicSigningKey store ctx requireMetadataSignature progress
      entry with _ | next
    · rw [hstep] at h
      exact nomatch h
    · rw [hstep] at h
      exact ih (authentic_putStep hkept hstep) h

/-- **A push stores authentic entries, and nothing else.** -/
theorem authentic_of_handlePutEntries {entries : List SyncEntry} {result : SyncStore × PutEntriesAck}
    (h : handlePutEntries crypto validatePublicSigningKey store ctx entries = .ok result) :
    ∃ toStore, result.1 = store.putEntries toStore ∧ ∀ kept ∈ toStore,
      Authentic crypto validatePublicSigningKey kept.toSyncEntryMetadata kept.encryptedData := by
  rw [handlePutEntries] at h
  rcases htoken : ctx.tokenPayload with thrown | tokenPayload
  · rw [htoken] at h
    exact nomatch h
  rw [htoken] at h
  simp only [Except.bind] at h
  split at h
  · exact nomatch h
  rcases hfold : entries.foldlM (putStep crypto validatePublicSigningKey store ctx
    (ctx.cutoff.any fun cutoff => ctx.receivedAt ≥ cutoff)) {} with _ | progress
  · rw [hfold] at h
    exact nomatch h
  · rw [hfold] at h
    obtain rfl := Except.ok.inj h
    exact ⟨progress.toStore, rfl, authentic_foldlM (by simp) hfold⟩

end MindooDB
