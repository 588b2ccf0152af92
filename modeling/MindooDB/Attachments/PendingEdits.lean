import MindooDB.Lib.FirstMatch
import MindooDB.Lib.JSString
import MindooDB.Lib.LinkedMap

/-!
# Attachments/PendingEdits — attachment edits inside `changeDoc`

The attachment methods of the draft that `changeDocInternal` of `core/BaseMindooDB.ts` hands to its
callback.  Calls are collected; when the callback is done, removals, appends, additions and texts
are applied to `_attachments`, in this order.

What a call uploads comes with it: the new reference, or the chunks that were stored, `none` where
the upload throws.  A call that throws leaves what was collected before.
-/

namespace MindooDB

inductive AttachmentExtractionStatus
  | done
  | failed
  | skipped
  deriving DecidableEq

structure AttachmentReference where
  attachmentId : JSString
  fileName : JSString
  mimeType : JSString
  size : ℕ
  lastChunkId : JSString
  decryptionKeyId : JSString
  createdAt : ℤ
  createdBy : JSString
  extractedText : Option JSString := none
  extractionStatus : Option AttachmentExtractionStatus := none
  extractionEngine : Option JSString := none
  extractedAt : Option ℤ := none
  deriving DecidableEq

/-- The result of an extraction; its text is `none` for `null`. -/
structure ExtractionResult where
  text : Option JSString
  status : Option AttachmentExtractionStatus := none
  engine : Option JSString := none
  extractedAt : Option ℤ := none
  deriving DecidableEq

/-- The chunks that an append stored. -/
structure StoredChunks where
  chunkIds : List JSString
  size : ℕ
  chunked : chunkIds = [] ↔ size = 0

inductive AttachmentCall
  | addAttachment (uploaded : Option AttachmentReference)
  | addAttachmentStream (uploaded : Option AttachmentReference)
  | removeAttachment (attachmentId : JSString)
  | appendToAttachment (attachmentId : JSString) (stored : Option StoredChunks)
  | setAttachmentExtractedText (attachmentId : JSString) (result : ExtractionResult)

/-! ## Collecting -/

/-- Bytes that are appended at the commit. -/
structure PendingAppend where
  lastChunkId : JSString
  sizeIncrease : ℕ
  deriving DecidableEq

/-- What one change has collected. -/
structure PendingAttachments where
  additions : List AttachmentReference := []
  removals : List JSString := []
  appends : LinkedMap JSString PendingAppend := ∅
  textUpdates : LinkedMap JSString ExtractionResult := ∅

def ATTACHMENT_EXTRACTED_TEXT_MAX_CHARS : ℕ := 100000

def ExtractionResult.capped (result : ExtractionResult) : ExtractionResult :=
  { result with text := result.text.map fun text =>
      if text.length > ATTACHMENT_EXTRACTED_TEXT_MAX_CHARS then
        text.take ATTACHMENT_EXTRACTED_TEXT_MAX_CHARS
      else text }

def appendToAttachmentInternal (prevLastChunkId : JSString) (stored : StoredChunks) :
    PendingAppend :=
  ⟨stored.chunkIds.getLast?.getD prevLastChunkId, stored.size⟩

/-- Whether there is a reference of an id. -/
def hasAttachment (attachments : List AttachmentReference) (attachmentId : JSString) : Bool :=
  attachments.any (·.attachmentId = attachmentId)

def findAttachment (attachments : List AttachmentReference) (attachmentId : JSString) :
    Option AttachmentReference :=
  attachments.find? (·.attachmentId = attachmentId)

namespace PendingAttachments

/-- What one more append comes to. -/
def nextAppend (ref : AttachmentReference) (prevAppend : Option PendingAppend)
    (stored : StoredChunks) : PendingAppend :=
  match prevAppend with
  | some prevAppend =>
    let next := appendToAttachmentInternal prevAppend.lastChunkId stored
    ⟨next.lastChunkId, prevAppend.sizeIncrease + next.sizeIncrease⟩
  | none => appendToAttachmentInternal ref.lastChunkId stored

variable (attachments : List AttachmentReference) (pending : PendingAttachments)

def addAttachment (uploaded : Option AttachmentReference) : PendingAttachments :=
  match uploaded with
  | some ref => { pending with additions := pending.additions ++ [ref] }
  | none => pending

def removeAttachment (attachmentId : JSString) : PendingAttachments :=
  if hasAttachment pending.additions attachmentId then
    { pending with
      additions := eraseFirst AttachmentReference.attachmentId attachmentId pending.additions }
  else if hasAttachment attachments attachmentId then
    if attachmentId ∈ pending.removals then pending
    else { pending with removals := pending.removals ++ [attachmentId] }
  else pending

def appendToAttachment (attachmentId : JSString) (stored : Option StoredChunks) :
    PendingAttachments :=
  match (findAttachment attachments attachmentId).or
      (findAttachment pending.additions attachmentId), stored with
  | some ref, some stored =>
    let next := nextAppend ref (pending.appends.get? attachmentId) stored
    { pending with appends := pending.appends.set attachmentId next }
  | _, _ => pending

def setAttachmentExtractedText (attachmentId : JSString) (result : ExtractionResult) :
    PendingAttachments :=
  if (hasAttachment attachments attachmentId && attachmentId ∉ pending.removals)
      || hasAttachment pending.additions attachmentId then
    { pending with textUpdates := pending.textUpdates.set attachmentId result.capped }
  else pending

/-- One call of the callback. -/
def call : AttachmentCall → PendingAttachments
  | .addAttachment uploaded => pending.addAttachment uploaded
  | .addAttachmentStream uploaded => pending.addAttachment uploaded
  | .removeAttachment attachmentId => pending.removeAttachment attachments attachmentId
  | .appendToAttachment attachmentId stored =>
    pending.appendToAttachment attachments attachmentId stored
  | .setAttachmentExtractedText attachmentId result =>
    pending.setAttachmentExtractedText attachments attachmentId result

end PendingAttachments

/-! ## Applying -/

namespace AttachmentReference

def append (attachment : AttachmentReference) (pending : PendingAppend) : AttachmentReference :=
  { attachment with
    lastChunkId := pending.lastChunkId
    size := attachment.size + pending.sizeIncrease }

def setExtractedText (now : ℤ) (update : ExtractionResult) (attachment : AttachmentReference) :
    AttachmentReference :=
  if update.text = none ∧ update.status = none then
    { attachment with
      extractedText := none
      extractionStatus := none
      extractionEngine := none
      extractedAt := none }
  else
    { attachment with
      extractedText := update.text
      extractionStatus := some (update.status.getD .done)
      extractionEngine := update.engine.or attachment.extractionEngine
      extractedAt := some (update.extractedAt.getD now) }

end AttachmentReference

/-- Edits of single attachments, each of the first one with its id. -/
def editEach {ν : Type} (edit : ν → AttachmentReference → AttachmentReference)
    (edits : LinkedMap JSString ν) (attachments : List AttachmentReference) :
    List AttachmentReference :=
  edits.toList.foldl (fun attachments entry =>
    updateFirst AttachmentReference.attachmentId entry.1 (edit entry.2) attachments) attachments

def PendingAttachments.apply (now : ℤ) (pending : PendingAttachments)
    (attachments : List AttachmentReference) : List AttachmentReference :=
  let kept := pending.removals.foldl (fun attachments attachmentId =>
    eraseFirst AttachmentReference.attachmentId attachmentId attachments) attachments
  let appended := editEach (fun pending a => a.append pending) pending.appends kept
  editEach (fun update a => a.setExtractedText now update) pending.textUpdates
    (appended ++ pending.additions)

/-- **The list after a `changeDoc`** whose callback makes some calls. -/
def changeAttachments (now : ℤ) (attachments : List AttachmentReference)
    (calls : List AttachmentCall) : List AttachmentReference :=
  (calls.foldl (PendingAttachments.call attachments) {}).apply now attachments

/-- **Each call in a `changeDoc` of its own.** -/
def changeOneByOne (now : ℤ) (attachments : List AttachmentReference)
    (calls : List AttachmentCall) : List AttachmentReference :=
  calls.foldl (fun attachments call => changeAttachments now attachments [call]) attachments

/-! ## The attachments and what was done to them -/

/-- An attachment that is there, and the calls that were made for it. -/
structure TrackedAttachment where
  ref : AttachmentReference
  /-- Added by a call. -/
  isNew : Bool := false
  appends : List StoredChunks := []
  texts : List ExtractionResult := []

def AttachmentCall.added? : AttachmentCall → Option AttachmentReference
  | addAttachment uploaded => uploaded
  | addAttachmentStream uploaded => uploaded
  | _ => none

namespace TrackedAttachment

def id (tracked : TrackedAttachment) : JSString := tracked.ref.attachmentId

/-- What a call does to an attachment that is there. -/
def record (tracked : TrackedAttachment) : AttachmentCall → TrackedAttachment
  | .appendToAttachment attachmentId (some stored) =>
    if tracked.id = attachmentId then { tracked with appends := tracked.appends ++ [stored] }
    else tracked
  | .setAttachmentExtractedText attachmentId result =>
    if tracked.id = attachmentId then { tracked with texts := tracked.texts ++ [result.capped] }
    else tracked
  | _ => tracked

/-- A call that does not remove it. -/
def survives (call : AttachmentCall) (tracked : TrackedAttachment) : Bool :=
  match call with
  | .removeAttachment attachmentId => tracked.id ≠ attachmentId
  | _ => true

end TrackedAttachment

/-- **The attachments after one more call.** -/
def trackCall (tracked : List TrackedAttachment) (call : AttachmentCall) :
    List TrackedAttachment :=
  (tracked.filter (·.survives call)).map (·.record call)
    ++ (call.added?.map fun ref => { ref, isNew := true : TrackedAttachment }).toList

/-- The calls of one change, one by one. -/
def track (tracked : List TrackedAttachment) (calls : List AttachmentCall) :
    List TrackedAttachment := calls.foldl trackCall tracked

/-- The attachments before any call. -/
def untouched (attachments : List AttachmentReference) : List TrackedAttachment :=
  attachments.map fun ref => { ref }

/-- **New ids are fresh**: none is in the document or is given twice. -/
def FreshIds (attachments : List AttachmentReference) (calls : List AttachmentCall) : Prop :=
  ((attachments ++ calls.filterMap AttachmentCall.added?).map
    AttachmentReference.attachmentId).Nodup

end MindooDB
