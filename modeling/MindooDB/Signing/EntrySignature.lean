import MindooDB.Lib.Base64
import MindooDB.Lib.ByteFormat
import MindooDB.Lib.JsonText

/-!
# Signing/EntrySignature — the bytes that signatures cover

`core/crypto/EntrySignature.ts`, `WitnessReceipt.ts` and `DomainStatement.ts`: an author signs the
fields of an entry, a witness what it accepted of it and when, and an application a statement under
one of a few domains.  `none` is an exception.
-/

namespace MindooDB

open JsonText

def ENTRY_SIGNATURE_LAYOUT_VERSION : ℕ := 0x01

def ENTRY_PROVENANCE_BLOCK_TAG : UInt8 := 0x02

def ENTRY_RECIPIENTS_BLOCK_TAG : UInt8 := 0x03

structure StoreEntryAttachmentRef where
  attachmentId : JSString
  lastChunkId : JSString
  size : ℤ
  deriving DecidableEq

inductive WrapKind where
  | user
  | device
  deriving DecidableEq

structure EntryRecipientWrap where
  kind : WrapKind
  keyFingerprint : JSString
  wrapped : JSString
  deriving DecidableEq

structure EntryRecipients where
  epoch : ℤ
  bundle : JSString
  wraps : List EntryRecipientWrap
  namesEncrypted : Option JSString := none
  deriving DecidableEq

/-- Where a copied entry came from; the fields that were signed there come with it. -/
structure EntryProvenance (Fields : Type) where
  sourceTenantId : JSString
  sourceDbId : JSString
  source : Fields
  sourceMetadataSignature : Option JSString

/-- What an entry's signature covers. -/
structure EntrySignatureFields where
  entryType : JSString
  id : JSString
  docId : JSString
  decryptionKeyId : JSString
  createdAt : ℤ
  dependencyIds : List JSString
  contentHash : JSString
  createdByPublicKey : JSString
  attachmentRefs : Option (List StoreEntryAttachmentRef) := none
  provenance : Option (EntryProvenance EntrySignatureFields) := none
  recipients : Option EntryRecipients := none

/-! ## Parts -/

def pushLengthPrefixed (bytes : List UInt8) : List UInt8 :=
  ByteFormat.bigEndian 4 bytes.length ++ bytes

def pushString (value : JSString) : List UInt8 := pushLengthPrefixed (TextEncoding.encode value)

def pushUint32BE (value : ℕ) : List UInt8 := ByteFormat.bigEndian 4 value

/-- `setBigInt64`, which keeps the last 64 bits. -/
def pushInt64BE (value : ℤ) : List UInt8 := ByteFormat.bigEndian 8 (value % 2 ^ 64).toNat

def pushAttachmentRef (ref : StoreEntryAttachmentRef) : List UInt8 :=
  pushString ref.attachmentId ++ pushString ref.lastChunkId ++ pushInt64BE ref.size

def base64ToBytes (base64 : JSString) : Option (List UInt8) := Base64.atob base64

def WrapKind.text : WrapKind → JSString
  | .user => "user"
  | .device => "device"

/-- `JSON.stringify(recipients)`. -/
def EntryRecipients.stringify (recipients : EntryRecipients) : JSString :=
  object <|
    [member "epoch" (integer recipients.epoch), member "bundle" (quote recipients.bundle),
      member "wraps" <| array <| recipients.wraps.map fun wrap =>
        object
          [member "kind" (quote wrap.kind.text),
            member "keyFingerprint" (quote wrap.keyFingerprint),
            member "wrapped" (quote wrap.wrapped)]]
    ++ (recipients.namesEncrypted.map fun names =>
      member "namesEncrypted" (quote names)).toList

/-- The signature of the source, empty when there is none. -/
def EntryProvenance.signatureBytes {Fields : Type} (provenance : EntryProvenance Fields) :
    Option (List UInt8) :=
  match provenance.sourceMetadataSignature with
  | none => some []
  | some signature => if signature.isEmpty then some [] else base64ToBytes signature

/-- The block of the attachments, when there are any. -/
def pushAttachmentRefs (attachmentRefs : Option (List StoreEntryAttachmentRef)) : List UInt8 :=
  match attachmentRefs with
  | none => []
  | some [] => []
  | some refs => pushUint32BE refs.length ++ refs.flatMap pushAttachmentRef

/-- The block of the recipients, when there are any. -/
def pushRecipients (recipients : Option EntryRecipients) : List UInt8 :=
  match recipients with
  | none => []
  | some recipients =>
    if recipients.wraps.length > 0 then
      ENTRY_RECIPIENTS_BLOCK_TAG :: pushString recipients.stringify
    else []

/-! ## The three layouts -/

/-- **The bytes that are signed.** -/
def buildEntrySigningBytes (version : ℕ) : EntrySignatureFields → Option (List UInt8)
  | { entryType, id, docId, decryptionKeyId, createdAt, dependencyIds, contentHash,
      createdByPublicKey, attachmentRefs, provenance, recipients } =>
    let head := UInt8.ofNat version :: (pushString entryType ++ pushString id ++ pushString docId
      ++ pushString decryptionKeyId ++ pushInt64BE createdAt ++ pushUint32BE dependencyIds.length
      ++ dependencyIds.flatMap pushString ++ pushString contentHash
      ++ pushString createdByPublicKey ++ pushAttachmentRefs attachmentRefs)
    let block : Option (List UInt8) := match provenance with
      | none => some []
      | some { sourceTenantId, sourceDbId, source, sourceMetadataSignature } =>
        match buildEntrySigningBytes version source, EntryProvenance.signatureBytes
          { sourceTenantId, sourceDbId, source, sourceMetadataSignature } with
        | some sourceBytes, some signature =>
          some (ENTRY_PROVENANCE_BLOCK_TAG :: (pushString sourceTenantId ++ pushString sourceDbId
            ++ pushLengthPrefixed sourceBytes ++ pushLengthPrefixed signature))
        | _, _ => none
    block.map fun block => head ++ block ++ pushRecipients recipients
termination_by structural fields => fields

def WITNESS_RECEIPT_LAYOUT_VERSION : ℕ := 0x01

/-- What a receipt's signature covers. -/
structure WitnessReceiptFields where
  entryType : JSString
  dbid : JSString
  contentHash : JSString
  id : JSString
  docId : JSString
  decryptionKeyId : JSString
  createdAt : ℤ
  createdByPublicKey : JSString
  receivedAt : ℤ
  receivedByPublicKey : JSString
  deriving DecidableEq

/-- **The bytes of a receipt.** -/
def buildWitnessSigningBytes (fields : WitnessReceiptFields) (version : ℕ) : List UInt8 :=
  UInt8.ofNat version :: (pushString fields.entryType ++ pushString fields.dbid
    ++ pushString fields.contentHash ++ pushString fields.id ++ pushString fields.docId
    ++ pushString fields.decryptionKeyId ++ pushInt64BE fields.createdAt
    ++ pushString fields.createdByPublicKey ++ pushInt64BE fields.receivedAt
    ++ pushString fields.receivedByPublicKey)

/-- `SIGNING_DOMAINS`. -/
def signingDomains : List JSString := ["mindoodb-seal/v1"]

def MAX_DOMAIN_STATEMENT_BYTES : ℕ := 256 * 1024

def isAllowedSigningDomain (domain : JSString) : Bool := domain ∈ signingDomains

def buildDomainStatementBytes (domain : JSString) (statement : List UInt8) :
    Option (List UInt8) :=
  if !isAllowedSigningDomain domain then none
  else if statement.length > MAX_DOMAIN_STATEMENT_BYTES then none
  else some (TextEncoding.encode domain ++ 0x00 :: statement)

end MindooDB
