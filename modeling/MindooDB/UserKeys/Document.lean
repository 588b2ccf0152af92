import MindooDB.Lib.CompareSort
import MindooDB.Lib.LinkedMap
import MindooDB.Lib.JSString
import MindooDB.Lib.Register

/-!
# UserKeys/Document — the user-key document of a person

`core/userkeys/UserKeyDocument.ts` and the device operations of `UserKeyManager.ts`: every device of
a person is given a wrap of each generation of the key, or declined.  An edit reads the nested map
and assigns it to its top-level field again.

What an operation asks of the tenant comes with it: the wraps that could be made, by generation, and
whether the device is an active one of the grant.
-/

namespace MindooDB

structure UserKeyDeviceWrap where
  wrappedKey : JSString
  label : Option JSString := none
  approvedAt : ℤ
  approvedBySigningPublicKey : JSString
  deriving DecidableEq

/-- A wrap that has just been made. -/
abbrev NewWrap := {wrap : UserKeyDeviceWrap // wrap.wrappedKey.isEmpty = false}

/-- A key, wrapped for each device. -/
structure UserKeyGeneration where
  publicKey : JSString
  fingerprint : JSString
  createdAt : ℤ
  retiredAt : Option ℤ := none
  deviceWraps : LinkedMap JSString UserKeyDeviceWrap

structure RejectedUserKeyDevice where
  signingPublicKey : Option JSString := none
  rejectedAt : ℤ
  rejectedBySigningPublicKey : JSString
  deriving DecidableEq

abbrev UserKeys := LinkedMap JSString UserKeyGeneration

abbrev RejectedDevices := LinkedMap JSString RejectedUserKeyDevice

/-- The two fields that the operations assign. -/
structure UserKeyDocument where
  userKeys : Register UserKeys
  rejectedDevices : Register RejectedDevices

/-- `!label`. -/
def lacksLabel (label : Option JSString) : Bool := label.all (·.isEmpty)

/-! ## Generations -/

/-- `/^\d+$/`. -/
def isEpoch (epoch : JSString) : Bool :=
  !epoch.isEmpty && epoch.units.all fun unit => 0x30 ≤ unit.val ∧ unit.val ≤ 0x39

/-- `BigInt(epoch)`. -/
def epochNumber (epoch : JSString) : ℕ :=
  epoch.units.foldl (fun n unit => 10 * n + (unit.val - 0x30)) 0

/-- Newest first. -/
def compareEpochs (a b : JSString) : ℤ :=
  if epochNumber a > epochNumber b then -1 else if epochNumber a < epochNumber b then 1 else 0

def epochsNewestFirst (userKeys : UserKeys) : List JSString :=
  sortBy compareEpochs (userKeys.keys.filter isEpoch)

/-! ## Edits -/

/-- The generation that a wrap is written to. -/
def generationAt (userKeys : UserKeys) (epoch : JSString) (now : ℤ) : UserKeyGeneration :=
  (userKeys.get? epoch).getD
    { publicKey := ⟨[]⟩, fingerprint := ⟨[]⟩, createdAt := now, deviceWraps := ∅ }

def setDeviceWrap (userKeys : UserKeys) (epoch deviceFingerprint : JSString)
    (wrap : UserKeyDeviceWrap) (now : ℤ) : UserKeys :=
  let gen := generationAt userKeys epoch now
  userKeys.set epoch { gen with deviceWraps := gen.deviceWraps.set deviceFingerprint wrap }

/-- What is stored of a new wrap: a label only when there is one. -/
def storedWrap (wrap : UserKeyDeviceWrap) : UserKeyDeviceWrap :=
  { wrap with label := wrap.label.filter fun label => !label.isEmpty }

def writeDeviceWrap (field : Register UserKeys) (epoch deviceFingerprint : JSString)
    (wrap : UserKeyDeviceWrap) (now : ℤ) : Register UserKeys :=
  match (generationAt field.value epoch now).deviceWraps.get? deviceFingerprint with
  | none => field.assign (setDeviceWrap field.value epoch deviceFingerprint (storedWrap wrap) now)
  | some existing =>
    if existing.wrappedKey.isEmpty then
      field.assign (setDeviceWrap field.value epoch deviceFingerprint (storedWrap wrap) now)
    else if lacksLabel existing.label && !lacksLabel wrap.label then
      field.assign (setDeviceWrap field.value epoch deviceFingerprint
        { existing with label := wrap.label } now)
    else field

/-- Write the wraps that could be made, the oldest generation first. -/
def writeWraps (field : Register UserKeys) (epochs : List JSString) (deviceFingerprint : JSString)
    (wraps : JSString → Option NewWrap) (now : ℤ) : Register UserKeys :=
  epochs.foldl (fun field epoch => match wraps epoch with
    | none => field
    | some wrap => writeDeviceWrap field epoch deviceFingerprint wrap.val now) field

/-- A device that was declined is no longer. -/
def clearRejected (field : Register RejectedDevices) (deviceFingerprint : JSString) :
    Register RejectedDevices :=
  if field.value.has deviceFingerprint then field.assign (field.value.delete deviceFingerprint)
  else field

/-! ## Operations -/

inductive UserKeyDeviceOp where
  | wrapUserKeyForGrantDevice (fingerprint : JSString) (wraps : JSString → Option NewWrap) (now : ℤ)
  | approveUserKeyDevice (fingerprint : JSString) (active : Bool)
      (wraps : JSString → Option NewWrap) (now : ℤ)
  | declineUserKeyDevice (fingerprint : JSString) (rejected : RejectedUserKeyDevice)
  | undoDeclineUserKeyDevice (fingerprint : JSString)

namespace UserKeyDocument

variable (doc : UserKeyDocument)

def epochs : List JSString := (epochsNewestFirst doc.userKeys.value).reverse

/-- An operation that throws leaves the document as it is. -/
def run : UserKeyDeviceOp → UserKeyDocument
  | .wrapUserKeyForGrantDevice fingerprint wraps now =>
    { doc with userKeys := writeWraps doc.userKeys doc.epochs fingerprint wraps now }
  | .approveUserKeyDevice fingerprint active wraps now =>
    if active && doc.epochs.any fun epoch => (wraps epoch).isSome then
      { userKeys := writeWraps doc.userKeys doc.epochs fingerprint wraps now
        rejectedDevices := clearRejected doc.rejectedDevices fingerprint }
    else doc
  | .declineUserKeyDevice fingerprint rejected =>
    { doc with rejectedDevices :=
        doc.rejectedDevices.assign (doc.rejectedDevices.value.set fingerprint rejected) }
  | .undoDeclineUserKeyDevice fingerprint =>
    { doc with rejectedDevices := clearRejected doc.rejectedDevices fingerprint }

def runs (ops : List UserKeyDeviceOp) : UserKeyDocument := ops.foldl run doc

/-- The document after two replicas of it have exchanged their changes. -/
def merge (left right : UserKeyDocument) (leftWins : Bool × Bool) : UserKeyDocument where
  userKeys := doc.userKeys.merge left.userKeys right.userKeys leftWins.1
  rejectedDevices := doc.rejectedDevices.merge left.rejectedDevices right.rejectedDevices leftWins.2

end UserKeyDocument

end MindooDB
