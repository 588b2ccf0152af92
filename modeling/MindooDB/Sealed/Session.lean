import MindooDB.Sealed.Recipients

/-!
# Sealed/Session — the keys of a sealed document

`core/userkeys/sealedCrypto.ts`, the sealed keys of `BaseMindooTenant.ts` and `mutateRecipients` of
`BaseMindooDB.ts`.  A sealed document has a key for each generation.  Every block of recipients packs
all of them, the newest first; a session unpacks the newest block, keeps what it found, and encrypts
under the first key that it keeps.

The ciphers are ideal: data that is encrypted under a key is known by that key, and a wrap is opened
by the private key whose fingerprint it names.
-/

namespace MindooDB.Sealed

/-- A key of 256 bits. -/
abbrev DocKey := {bytes : List UInt8 // bytes.length = 32}

/-! ## Bundles -/

def concatGenerations (generations : List DocKey) : List UInt8 := generations.flatMap Subtype.val

def splitGenerations (bytes : List UInt8) : List DocKey :=
  if h : 32 ≤ bytes.length then
    ⟨bytes.take 32, by simp [h]⟩ :: splitGenerations (bytes.drop 32)
  else []
termination_by bytes.length

/-- All generations, wrapped for every target. -/
def sealBundle (generations : List DocKey) (wrapsTo : List ResolvedWrapTarget) :
    EntryRecipients where
  epoch := generations.length
  bundle := concatGenerations generations
  wraps := wrapsTo.map fun target => ⟨target.kind, target.keyFingerprint⟩

/-- Keys in one bundle, wrapped for every target. -/
def sealToTargets (generations : List DocKey) (targets : List ResolvedWrapTarget) (epoch : ℕ) :
    EntryRecipients :=
  { sealBundle generations targets with epoch := epoch }

/-- What a private key, known by its fingerprint, finds in a bundle. -/
def openBundle (recipients : EntryRecipients) (privateKey : JSString) : Option (List DocKey) :=
  if recipients.wraps.any fun wrap => wrap.keyFingerprint = privateKey then
    some (splitGenerations recipients.bundle).reverse
  else none

/-! ## Entries and sessions -/

/-- An entry of the document in the store. -/
structure SealedEntry where
  recipients : Option EntryRecipients := none
  createdAt : ℤ
  /-- The key that its data is encrypted under. -/
  key : DocKey
  /-- A change of the document; not a snapshot of it, nor a piece of an attachment. -/
  changes : Bool
  deriving DecidableEq

/-- What a session keeps of a document: its keys, and the block of the document in memory, which
holds the first entries of the store. -/
structure SealedSession where
  sealedGenerations : Option (List DocKey) := none
  sealedRecipients : Option EntryRecipients := none
  seen : ℕ := 0
  /-- `Automerge.change` was called on the document in memory, and what it gave was not stored. -/
  outdated : Bool := false

/-- The newest block among some entries. -/
def newestBlock (entries : List SealedEntry) : Option EntryRecipients :=
  newestRecipientBlock (entries.map fun entry => (entry.recipients, entry.createdAt))

/-- A session with keys opens the bundle, unless what it has is not older. -/
def ingestSealedRecipients (keys : List JSString) (cached : Option (List DocKey))
    (recipients : EntryRecipients) : Option (List DocKey) :=
  if cached.any fun generations =>
      decide (recipients.epoch ≤ generations.length) && decide (0 < recipients.epoch) then cached
  else if keys.isEmpty then cached
  else keys.findSome? (openBundle recipients)

/-- A session takes what the newest block packs. -/
def ingestSealedFromEntries (keys : List JSString) (cached : Option (List DocKey))
    (entries : List SealedEntry) : Option (List DocKey) :=
  match newestBlock entries with
  | none => cached
  | some newest => ingestSealedRecipients keys cached newest

/-- How a session comes to the document: newly started, or with the document loaded from the store,
or restored from the cache on disk, or still in memory. -/
inductive SealedOpening where
  | fresh
  | loaded
  | restored
  | cached
  deriving DecidableEq

/-- The document in memory is rebuilt without its block when changes of others are applied. -/
def openSession (opening : SealedOpening) (keys : List JSString) (entries : List SealedEntry)
    (session : SealedSession) : SealedSession where
  sealedGenerations := ingestSealedFromEntries keys
    (if opening = .fresh then none else session.sealedGenerations) entries
  sealedRecipients := match opening with
    | .fresh | .loaded => newestBlock entries
    | .restored => none
    | .cached =>
      if (entries.drop session.seen).any SealedEntry.changes then none
      else session.sealedRecipients
  seen := entries.length
  outdated := opening = .cached && session.outdated
    && !(entries.drop session.seen).any SealedEntry.changes

/-- What is asked of the store, and whether it succeeds. -/
structure SealedWrite where
  keys : List JSString
  now : Timestamp
  stored : Bool
  /-- A change that fails leaves the document in memory outdated, as it does after
  `Automerge.change`. -/
  outdates : Bool := true

/-- `encryptPayload`: the first key is the one to encrypt under. -/
def encryptPayload (generations : Option (List DocKey)) : Option DocKey :=
  generations.bind List.head?

/-- Persist an entry: the access is checked again, and nothing is written when it is lost. -/
def persistEntry (write : SealedWrite) (recipients : Option EntryRecipients) (changes : Bool)
    (entries : List SealedEntry) (session : SealedSession) : SealedSession × Option SealedEntry :=
  let generations := ingestSealedFromEntries write.keys session.sealedGenerations entries
  let failed := { session with
    sealedGenerations := generations
    outdated := if changes then write.outdates else session.outdated }
  match encryptPayload generations with
  | none => (failed, none)
  | some key =>
    if write.stored then
      ({ sealedGenerations := generations
         sealedRecipients := recipients.or session.sealedRecipients
         seen := entries.length + 1
         outdated := session.outdated && !changes },
        some { recipients := recipients, createdAt := write.now, key, changes })
    else (failed, none)

/-! ## Changing the recipients -/

inductive RecipientMode where
  | add
  | remove
  | set
  deriving DecidableEq

/-- What a caller asks of the list. -/
structure RecipientChange where
  mode : RecipientMode
  specs : List RecipientSpec
  options : RecipientOptions
  directory : RecipientDirectory
  /-- The key that is generated when somebody is removed. -/
  nextDek : DocKey
  signer : JSString

/-- What a change is to write. -/
structure RecipientPlan where
  addedTargets : List ResolvedWrapTarget
  removedStableIds : List JSString
  generations : List DocKey
  epoch : ℕ
  remaining : List ResolvedWrapTarget

/-- Whether an entry of the list means a target. -/
def matchesTarget (id : JSString) (entry : EncryptForEntry) (target : ResolvedWrapTarget) : Bool :=
  decide (target.stableId = baseId id) || decide (target.id = baseId id)
    || entry.label.any (fun label => !label.isEmpty && target.id = label)
    || entry.keyFingerprint.any (fun fingerprint =>
      !fingerprint.isEmpty && target.keyFingerprint = fingerprint)

/-- The spec that an entry of the list is resolved by again. -/
def existingSpec (id : JSString) (entry : EncryptForEntry) : RecipientSpec :=
  match entry.kind with
  | .device => .device (entry.keyFingerprint.getD id) entry.label
  | .user => .user (entry.label.getD id)

namespace RecipientChange

variable (change : RecipientChange)

/-- Whether the caller keeps themselves. -/
def includesSelf : Bool := change.mode = .set && change.options.includeSelf ≠ some false

/-- The targets that the caller names. -/
def resolve : Except JSString ResolvedRecipients :=
  change.directory.resolveRecipientSpecs change.specs
    { includeSelf := some change.includesSelf, strict := change.options.strict }

/-- The targets of those who are listed. -/
def existingTargets (map : EncryptFor) : Except JSString (List ResolvedWrapTarget) :=
  let existingSpecs := (activeEncryptForEntries map).map fun (id, entry) => existingSpec id entry
  if existingSpecs.isEmpty then return []
  else ResolvedRecipients.targets <$> change.directory.resolveRecipientSpecs existingSpecs
    { includeSelf := some false, strict := some false }

def addedTargets (map : EncryptFor) (targets : List ResolvedWrapTarget) :
    List ResolvedWrapTarget :=
  let activeIds := (activeEncryptForEntries map).map fun entry => baseId entry.1
  if change.mode = .remove then []
  else targets.filter fun target =>
    !activeIds.contains target.stableId && !activeIds.contains target.id

def removedStableIds (map : EncryptFor) (targets : List ResolvedWrapTarget) : List JSString :=
  let nextIds := targets.flatMap fun target => [target.stableId, target.id]
  ((activeEncryptForEntries map).filter fun (id, entry) => match change.mode with
    | .add => false
    | .remove => targets.any (matchesTarget id entry)
    | .set => !targets.any (matchesTarget id entry) && !nextIds.contains (baseId id)).map
      fun entry => baseId entry.1

/-- A target goes with a removed id. -/
def goesWith (id : JSString) (target : ResolvedWrapTarget) : Bool :=
  decide (target.id = id) || decide (target.stableId = id) || decide (target.keyFingerprint = id)

/-- The targets without those of a removed id. -/
def deleteRemoved (remaining : LinkedMap JSString ResolvedWrapTarget) (id : JSString) :
    LinkedMap JSString ResolvedWrapTarget :=
  let others := remaining.delete id
  (others.toList.filter fun entry => goesWith id entry.2).foldl
    (fun others entry => others.delete entry.1) others

/-- Those who stay. -/
def remainingTargets (existing added : List ResolvedWrapTarget) (removed : List JSString) :
    LinkedMap JSString ResolvedWrapTarget :=
  removed.foldl deleteRemoved
    ((existing ++ added).foldl (fun remaining target => remaining.set target.stableId target) ∅)

/-- The plan of a change, with the keys and the block of the session. -/
def plan (map : EncryptFor) (session : SealedSession) : Except JSString RecipientPlan := do
  let resolved ← change.resolve
  let addedTargets := change.addedTargets map resolved.targets
  let removedStableIds := change.removedStableIds map resolved.targets
  let currentGens := session.sealedGenerations.getD []
  if currentGens.isEmpty then
    throw ("Cannot change recipients: the current document key is not in this session" : JSString)
  let epoch := (session.sealedRecipients.map EntryRecipients.epoch).getD currentGens.length
  let existing ← change.existingTargets map
  let remaining := (remainingTargets existing addedTargets removedStableIds).values
  if remaining.isEmpty then
    throw ("Refusing to leave a sealed document with no recipients" : JSString)
  return {
    addedTargets, removedStableIds, remaining
    generations := if removedStableIds.isEmpty then currentGens else change.nextDek :: currentGens
    epoch := if removedStableIds.isEmpty then epoch else epoch + 1 }

end RecipientChange

/-- The list after a change. -/
def RecipientPlan.apply (plan : RecipientPlan) (now : ℤ) (signer : JSString) (map : EncryptFor) :
    EncryptFor :=
  applyEncryptForRemoves
    (applyEncryptForAdds map
      (plan.addedTargets.map fun target => (target.stableId, target.toEntry now signer)) plan.epoch)
    plan.removedStableIds now signer

/-! ## Runs -/

inductive SealedAction where
  | changeDoc
  | applyPatch
  | addData
  | mutateRecipients (change : RecipientChange)

def SealedAction.mutates : SealedAction → Bool
  | .mutateRecipients _ => true
  | .changeDoc | .applyPatch | .addData => false

/-- A session comes to the document and acts on it. -/
structure SealedOp (S : Type) where
  session : S
  opening : SealedOpening
  write : SealedWrite
  action : SealedAction

/-- The store, the list in the payload, and the sessions. -/
structure SealedState (S : Type) where
  entries : List SealedEntry
  encryptFor : EncryptFor
  sessions : S → SealedSession

namespace SealedState

variable {S : Type} [DecidableEq S]

/-- A document is created by a session. -/
def create (session : S) (directory : RecipientDirectory) (specs : List RecipientSpec)
    (options : RecipientOptions) (dek : DocKey) (now : Timestamp) (signer : JSString) :
    Except JSString (SealedState S) := do
  let resolved ← directory.resolveRecipientSpecs specs options
  let recipients := sealToTargets [dek] resolved.targets 1
  return {
    entries := [{ recipients := some recipients, createdAt := now, key := dek, changes := true }]
    encryptFor := LinkedMap.ofList
      (resolved.targets.map fun target => (target.stableId, target.toEntry now signer))
    sessions := Function.update (fun _ => {}) session
      { sealedGenerations := some [dek], sealedRecipients := some recipients, seen := 1 } }

variable (state : SealedState S)

/-- The session of an operation when it acts. -/
def opened (op : SealedOp S) : SealedSession :=
  openSession op.opening op.write.keys state.entries (state.sessions op.session)

/-- The state after a session has persisted an entry, or failed to. -/
def persist (op : SealedOp S) (session : SealedSession) (recipients : Option EntryRecipients)
    (changes : Bool) (encryptFor : EncryptFor) : SealedState S :=
  let (session, entry) := persistEntry op.write recipients changes state.entries session
  { entries := state.entries ++ entry.toList
    encryptFor := if entry.isSome then encryptFor else state.encryptFor
    sessions := Function.update state.sessions op.session session }

def step (op : SealedOp S) : SealedState S :=
  let session := state.opened op
  match op.action with
  | .changeDoc => state.persist op session session.sealedRecipients true state.encryptFor
  | .applyPatch => state.persist op session none true state.encryptFor
  | .addData => state.persist op session none false state.encryptFor
  | .mutateRecipients change =>
    match change.plan state.encryptFor session with
    | .error _ => { state with sessions := Function.update state.sessions op.session session }
    | .ok plan =>
      let session := { session with sealedGenerations := some plan.generations }
      -- `Automerge.change` throws, and nothing makes a copy of the document as `changeDoc` does
      if session.outdated then
        { state with sessions := Function.update state.sessions op.session session }
      else
        state.persist op session
          (some (sealToTargets plan.generations plan.remaining plan.epoch)) true
          (plan.apply op.write.now change.signer state.encryptFor)

def run (ops : List (SealedOp S)) : SealedState S := ops.foldl step state

end SealedState

end MindooDB.Sealed
