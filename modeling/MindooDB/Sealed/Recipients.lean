import MindooDB.Directory.Types
import MindooDB.Sealed.UserNames

/-!
# Sealed/Recipients — whom a document is sealed to

`core/userkeys/recipients.ts`.  A sealed document names its recipients twice: the field `_encryptFor`
of its payload lists them, and a block on its entries holds the wraps.  Names and fingerprints are
resolved against the directory as it stands when a wrap is made.
-/

namespace MindooDB.Sealed

/-- A moment, in milliseconds; the clock is past zero. -/
abbrev Timestamp := {now : ℤ // 0 < now}

inductive RecipientKind where
  | user
  | device
  deriving DecidableEq

/-- Whom a caller names. -/
inductive RecipientSpec where
  | user (username : JSString)
  | device (fingerprint : JSString) (label : Option JSString)
  | devicePem (pem label : JSString)
  deriving DecidableEq

/-- A recipient, as the document has it. -/
structure EncryptForEntry where
  kind : RecipientKind
  label : Option JSString := none
  addedAt : ℤ
  addedBy : JSString
  keyFingerprint : Option JSString := none
  removedAt : Option ℤ := none
  removedBy : Option JSString := none
  deriving DecidableEq

/-- `!entry.removedAt`. -/
def EncryptForEntry.isActive (entry : EncryptForEntry) : Bool := entry.removedAt.all (· = 0)

/-- The field `_encryptFor`. -/
abbrev EncryptFor := LinkedMap JSString EncryptForEntry

structure EntryRecipientWrap where
  kind : RecipientKind
  keyFingerprint : JSString
  deriving DecidableEq

/-- The wraps of an entry.  A bundle is what the owner of a wrapped key decrypts. -/
structure EntryRecipients where
  epoch : ℕ
  bundle : List UInt8
  wraps : List EntryRecipientWrap
  deriving DecidableEq

/-- A key to wrap for, and whose it is. -/
structure ResolvedWrapTarget where
  kind : RecipientKind
  id : JSString
  stableId : JSString
  keyFingerprint : JSString
  label : Option JSString := none
  deriving DecidableEq

/-! ## The newest block -/

/-- The better one of the best block so far and that of an entry. -/
def newerRecipientBlock (best : Option (EntryRecipients × ℤ)) (recipients : Option EntryRecipients)
    (createdAt : ℤ) : Option (EntryRecipients × ℤ) :=
  match recipients with
  | none => best
  | some recipients =>
    if recipients.wraps.isEmpty then best
    else match best with
      | none => some (recipients, createdAt)
      | some (other, otherCreatedAt) =>
        if recipients.epoch > other.epoch
            || recipients.epoch = other.epoch && createdAt > otherCreatedAt then
          some (recipients, createdAt)
        else some (other, otherCreatedAt)

/-- The block of the highest epoch, and of those the latest. -/
def newestRecipientBlock (entries : List (Option EntryRecipients × ℤ)) : Option EntryRecipients :=
  (entries.foldl (fun best entry => newerRecipientBlock best entry.1 entry.2) none).map Prod.fst

/-! ## Resolving recipients -/

structure PublishedUserKey where
  fingerprint : JSString
  pending : Bool

/-- What is read of the tenant and its directory when recipients are resolved. -/
structure RecipientDirectory where
  unicode : UnicodeTables
  currentUsername : JSString
  publishedUserKeyFor : JSString → Option PublishedUserKey
  /-- The documents of the directory, in the order of their changes. -/
  docs : List JsonObject
  fingerprintEncryptionPublicKey : JSString → Except JSString JSString

structure RecipientOptions where
  includeSelf : Option Bool := none
  strict : Option Bool := none

/-- `options.includeSelf !== false`. -/
def RecipientOptions.includesSelf (options : RecipientOptions) : Bool :=
  options.includeSelf ≠ some false

/-- The targets of a spec, or why there are none. -/
structure SpecResolution where
  targets : List ResolvedWrapTarget
  skipped : Option JSString := none

/-- The targets of some specs. -/
structure ResolvedRecipients where
  targets : List ResolvedWrapTarget := []
  skipped : List (RecipientSpec × JSString) := []

def specKey : RecipientSpec → JSString
  | .user username => "user:" ++ username
  | .device fingerprint _ => "device:" ++ fingerprint
  | .devicePem pem _ => "devicePem:" ++ pem

def userNameFromSpec : RecipientSpec → Option JSString
  | .user username => some username
  | .device _ _ | .devicePem _ _ => none

/-- What is listed of a target. -/
def ResolvedWrapTarget.toEntry (target : ResolvedWrapTarget) (now : ℤ) (addedBy : JSString) :
    EncryptForEntry where
  kind := target.kind
  label := target.label.filter fun label => !label.isEmpty
  addedAt := now
  addedBy := addedBy
  keyFingerprint := some target.keyFingerprint

namespace RecipientDirectory

variable (directory : RecipientDirectory)

/-- The published key of a user; `none` while it is pending. -/
def resolveUserTarget (username : JSString) : Except JSString (Option ResolvedWrapTarget) := do
  let canonical ← directory.unicode.canonicalizeUsername username
  match directory.publishedUserKeyFor canonical with
  | none => return none
  | some published =>
    if published.pending then return none
    let label ← directory.unicode.formatCanonicalUsernameLabel username
    return some {
      kind := .user
      id := canonical
      stableId := canonical
      keyFingerprint := published.fingerprint
      label := some label }

/-- The device pairs of every grant. -/
def devicePairs : List GrantKeyPair :=
  (directory.docs.filter fun data => Json.isString (data.field "form") "useroperation"
    && Json.isString (data.field "type") "grantaccess").flatMap extractActiveKeyPairs

def findDevicePair (fingerprint : JSString) :
    List GrantKeyPair → Except JSString (Option GrantKeyPair)
  | [] => return none
  | pair :: pairs => do
    if (← directory.fingerprintEncryptionPublicKey pair.encryptionPublicKey) = fingerprint then
      return some pair
    findDevicePair fingerprint pairs

def resolveDeviceTarget (fingerprint : JSString) (label : Option JSString) :
    Except JSString (Option ResolvedWrapTarget) := do
  let pair? ← directory.findDevicePair fingerprint directory.devicePairs
  return pair?.map fun pair =>
    { kind := .device
      id := fingerprint
      stableId := fingerprint
      keyFingerprint := fingerprint
      label := label.or pair.label }

def resolveOneSpec : RecipientSpec → Except JSString SpecResolution
  | .user username => do
    match ← directory.resolveUserTarget username with
    | none => return { targets := [], skipped := some "no published user key" }
    | some target => return { targets := [target] }
  | .devicePem pem label => do
    let fingerprint ← directory.fingerprintEncryptionPublicKey pem
    return { targets := [{
      kind := .device
      id := fingerprint
      stableId := fingerprint
      keyFingerprint := fingerprint
      label := some label }] }
  | .device fingerprint label => do
    match ← directory.resolveDeviceTarget fingerprint label with
    | none => return { targets := [], skipped := some "device not found" }
    | some target => return { targets := [target] }

/-- A target is taken once. -/
def addTarget (targets : List ResolvedWrapTarget) (target : ResolvedWrapTarget) :
    List ResolvedWrapTarget :=
  if targets.any fun t => t.stableId = target.stableId then targets else targets ++ [target]

def addSpec (strict : Bool) (resolved : ResolvedRecipients) (spec : RecipientSpec) :
    Except JSString ResolvedRecipients :=
  match directory.resolveOneSpec spec with
  | .error message =>
    if strict then throw message
    else return { resolved with skipped := resolved.skipped ++ [(spec, message)] }
  | .ok { targets := _, skipped := some reason } =>
    if strict then
      throw ("Recipient " ++ specKey spec ++ " could not be resolved: " ++ reason)
    else return { resolved with skipped := resolved.skipped ++ [(spec, reason)] }
  | .ok { targets, skipped := none } =>
    return { resolved with targets := targets.foldl addTarget resolved.targets }

/-- The specs, and the current user. -/
def withSelf (specs : List RecipientSpec) : List RecipientSpec :=
  if specs.any fun spec => (userNameFromSpec spec).any fun name =>
      directory.unicode.usernamesEqual name directory.currentUsername then specs
  else specs ++ [.user directory.currentUsername]

def assertCanonicalizableUsernames (specs : List RecipientSpec) : Except JSString Unit :=
  (specs.filterMap userNameFromSpec).forM fun name => do
    let _ ← directory.unicode.canonicalizeUsername name

/-- Everyone named, with keys to wrap for. -/
def resolveRecipientSpecs (specs : List RecipientSpec) (options : RecipientOptions) :
    Except JSString ResolvedRecipients := do
  directory.assertCanonicalizableUsernames specs
  let resolved ← (if options.includesSelf then directory.withSelf specs else specs).foldlM
    (directory.addSpec (options.strict = some true)) {}
  if resolved.targets.isEmpty then
    throw (if options.includesSelf then
      ("No published User-Key is available to seal this document to" : JSString)
      else "recipients: [] with includeSelf: false would produce a document nobody can read")
  return resolved

end RecipientDirectory

/-! ## The list in the payload -/

/-- `id.split("#")[0]`. -/
def baseId (id : JSString) : JSString := ⟨id.units.takeWhile (· ≠ 0x23)⟩

/-- The entries that are not removed. -/
def activeEncryptForEntries (map : EncryptFor) : List (JSString × EncryptForEntry) :=
  map.toList.filter fun entry => entry.2.isActive

structure ResolvedRecipient where
  kind : RecipientKind
  id : JSString
  isSealed : Bool

/-- The recipients of a stored payload. -/
def resolveRecipientsFromPayload (map : EncryptFor) (block : Option EntryRecipients) :
    List ResolvedRecipient :=
  let wraps := (block.map EntryRecipients.wraps).getD []
  (activeEncryptForEntries map).map fun (id, entry) =>
    { kind := entry.kind
      id := if entry.kind = .device then entry.keyFingerprint.getD id else id
      isSealed := entry.keyFingerprint.any fun fingerprint =>
        !fingerprint.isEmpty && wraps.any fun wrap => wrap.keyFingerprint = fingerprint }

/-- A recipient who was removed comes back under an id of the epoch. -/
def addEncryptForEntry (epoch : ℕ) (map : EncryptFor) (added : JSString × EncryptForEntry) :
    EncryptFor :=
  match map.get? added.1 with
  | none => map.set added.1 added.2
  | some existing =>
    if existing.isActive then map
    else map.set (added.1 ++ "#" ++ JSString.ofNat epoch) added.2

/-- Recipients come, or come back. -/
def applyEncryptForAdds (map : EncryptFor) (encryptFor : List (JSString × EncryptForEntry))
    (epoch : ℕ) : EncryptFor :=
  encryptFor.foldl (addEncryptForEntry epoch) map

/-- Whether some of the removed ids means an entry. -/
def isRemovedId (stableIds : List JSString) (id : JSString) : Bool :=
  stableIds.contains (baseId id) || stableIds.contains id

/-- An entry of the list after some ids are removed. -/
def removedEntry (stableIds : List JSString) (now : ℤ) (removedBy id : JSString)
    (entry : EncryptForEntry) : EncryptForEntry :=
  if isRemovedId stableIds id && entry.isActive then
    { entry with removedAt := some now, removedBy := some removedBy }
  else entry

def removeEncryptForEntry (stableIds : List JSString) (now : ℤ) (removedBy : JSString)
    (map : EncryptFor) (id : JSString) : EncryptFor :=
  match map.get? id with
  | none => map
  | some entry => map.set id (removedEntry stableIds now removedBy id entry)

/-- Recipients go; their entries stay. -/
def applyEncryptForRemoves (map : EncryptFor) (stableIds : List JSString) (now : ℤ)
    (removedBy : JSString) : EncryptFor :=
  map.keys.foldl (removeEncryptForEntry stableIds now removedBy) map

/-- Whether each of some users is listed with a wrap. -/
def isPayloadEncryptedFor (unicode : UnicodeTables) (map : EncryptFor)
    (block : Option EntryRecipients) (users : List JSString) : Except JSString Bool :=
  if users.isEmpty then return false
  else users.allM fun user => do
    let key ← unicode.canonicalizeUsername user
    (resolveRecipientsFromPayload map block).anyM fun recipient =>
      if recipient.kind = .user && recipient.isSealed then
        return (← unicode.canonicalizeUsername recipient.id) = key
      else return false

end MindooDB.Sealed
