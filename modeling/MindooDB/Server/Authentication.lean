import MindooDB.Lib.JsonText
import MindooDB.Server.Directory
import MindooDB.Server.Types

/-!
# Server/Authentication — challenges, tokens and what they are checked against

`core/appendonlystores/network/AuthenticationService.ts`.  A call asks the directory several times
and awaits each answer, so it runs in steps (`AuthPhase`), and between any two of them other calls
run and the directory changes; what stands between two awaits is one step.  Verifying a signature or
a token asks nobody and is part of the step before.

Tokens are ideal: a token is its payload, and one that verifies is one that was issued.
-/

namespace MindooDB

open JsonText

structure AuthConfig where
  tenantId : JSString
  challengeExpirationMs : ℤ := 5 * 60 * 1000
  tokenExpirationMs : ℤ := 60 * 60 * 1000

def MAX_CHALLENGES : ℕ := 10000

/-- `s || undefined`: an empty string counts as not given. -/
def orUndefined (s : Option JSString) : Option JSString := s.filter fun s => !s.isEmpty

structure AuthResult where
  token : Option NetworkAuthTokenPayload
  error : Option JSString
  deriving DecidableEq

/-- A call of `authenticate` that has marked its challenge as used. -/
structure Attempt where
  challenge : AuthChallenge
  signature : List UInt8
  deriving DecidableEq

/-- Whom the error texts name. -/
def Attempt.principalLabel (attempt : Attempt) : JSString :=
  (attempt.challenge.username.or attempt.challenge.signingPublicKey).getD "unknown"

/-- The keys to try when there are no others: that of the challenge. -/
def Attempt.fallbackPems (attempt : Attempt) : List JSString :=
  attempt.challenge.signingPublicKey.toList

def SigningKeyUniverse.all (keys : SigningKeyUniverse) : List JSString :=
  keys.active ++ keys.wipeRequested

/-- What a call waits for the directory to answer. -/
inductive AuthPhase where
  /-- `generateChallenge`: the keys of the user, and what follows when there are none. -/
  | userKeys (username : JSString) (signingPublicKey : Option JSString)
  | wipeUniverse (username : JSString) (signingPublicKey : Option JSString)
  | userRevoked (username : JSString)
  /-- `generateChallenge`: whether a named key is one of the user. -/
  | knownKeys (username signingPublicKey : JSString)
  | knownPrimary (username signingPublicKey : JSString)
  | userByKey (signingPublicKey : JSString)
  | challenged (challenge : JSString)
  /-- `authenticate`. -/
  | resolving (attempt : Attempt) (signingPublicKey : JSString)
  | candidates (attempt : Attempt) (username : JSString)
  | candidatePrimary (attempt : Attempt) (username : JSString)
  | verifying (attempt : Attempt) (username : JSString)
  | verifyingPrimary (attempt : Attempt) (username : JSString)
  | flagging (attempt : Attempt) (username matchedKey : JSString)
  | authenticated (result : AuthResult)
  /-- `validateToken`. -/
  | tokenUser (payload : NetworkAuthTokenPayload) (deviceKey : JSString)
  | tokenUniverse (payload : NetworkAuthTokenPayload) (deviceKey username : JSString)
  | tokenRevoked (payload : NetworkAuthTokenPayload) (username : JSString) (keyInactive : Bool)
  | validated (payload : Option NetworkAuthTokenPayload)
  | threw (thrown : Thrown)
  deriving DecidableEq

/-- A token, and what it was issued for. -/
structure Issue where
  call : ℕ
  attempt : Attempt
  /-- Whom the challenge was resolved to. -/
  username : Option JSString
  matchedKey : JSString
  payload : NetworkAuthTokenPayload
  deriving DecidableEq

/-- The service, its directory and its calls.  `generated` are the challenges that `uuidv7` has made
so far, `issued` the tokens that verify. -/
structure AuthState where
  directory : AuthDirectory
  now : ℤ
  challenges : LinkedMap JSString AuthChallenge := ∅
  generated : List JSString := []
  issued : List Issue := []
  calls : ℕ → Option AuthPhase := fun _ => none

namespace AuthState

variable (config : AuthConfig) (verifySignature : JSString → List UInt8 → JSString → Bool)
  (s : AuthState)

def move (call : ℕ) (phase : AuthPhase) : AuthState :=
  { s with calls := Function.update s.calls call (some phase) }

@[simp] theorem calls_move_self (call : ℕ) (phase : AuthPhase) :
    (s.move call phase).calls call = some phase := Function.update_self _ _ _

theorem calls_move_of_ne {call call' : ℕ} (h : call' ≠ call) (phase : AuthPhase) :
    (s.move call phase).calls call' = s.calls call' := Function.update_of_ne h _ _

def throwNetwork (call : ℕ) (type : NetworkErrorType) (message : JSString) : AuthState :=
  s.move call (.threw (.network ⟨type, message⟩))

def fail (call : ℕ) (error : JSString) : AuthState :=
  s.move call (.authenticated ⟨none, some error⟩)

/-! ## Challenges -/

/-- Expired challenges go. -/
def cleanupExpiredChallenges (challenges : LinkedMap JSString AuthChallenge) :
    LinkedMap JSString AuthChallenge :=
  challenges.toList.foldl (fun challenges entry =>
    if entry.2.expiresAt < s.now then challenges.delete entry.1 else challenges) challenges

/-- The oldest challenges go when there are too many. -/
def evictChallengesOverCap (challenges : LinkedMap JSString AuthChallenge) :
    LinkedMap JSString AuthChallenge :=
  (challenges.keys.take (challenges.size - MAX_CHALLENGES)).foldl LinkedMap.delete challenges

/-- `uuidv7` makes no challenge twice; where it would, nothing happens. -/
def storeChallenge (call : ℕ) (uuid : JSString) (username signingPublicKey : Option JSString) :
    AuthState :=
  if uuid ∈ s.generated then s
  else
    { s.move call (.challenged uuid) with
      generated := uuid :: s.generated
      challenges := evictChallengesOverCap (s.cleanupExpiredChallenges (s.challenges.set uuid
        { challenge := uuid
          username := orUndefined username
          signingPublicKey := orUndefined signingPublicKey
          createdAt := s.now
          expiresAt := s.now + config.challengeExpirationMs })) }

/-- A call asks for a challenge. -/
def generateChallenge (call : ℕ) (username signingPublicKey : Option JSString) : AuthState :=
  match orUndefined username, orUndefined signingPublicKey with
  | some username, _ => s.move call (.userKeys username (orUndefined signingPublicKey))
  | none, some signingPublicKey => s.move call (.userByKey signingPublicKey)
  | none, none => s.throwNetwork call .userNotFound
      "A username or signing public key is required to request a challenge."

/-! ## Tokens -/

/-- `JSON.stringify(payload)`. -/
def stringifyPayload (payload : NetworkAuthTokenPayload) : JSString :=
  object <|
    [member "sub" (quote payload.sub),
      member "iat" (integer payload.iat),
      member "exp" (integer payload.exp),
      member "tenantId" (quote payload.tenantId)]
    ++ (payload.deviceSigningKey.map fun key =>
      member "deviceSigningKey" (quote key)).toList
    ++ if payload.wipe then [member "wipe" "true"] else []

def tokenPayload (attempt : Attempt) (matchedKey : JSString) (wipe : Bool) :
    NetworkAuthTokenPayload :=
  { sub := attempt.challenge.username.getD matchedKey
    iat := s.now / 1000
    exp := s.now / 1000 + config.tokenExpirationMs / 1000
    tenantId := config.tenantId
    deviceSigningKey := orUndefined (some matchedKey)
    wipe }

/-- The token of a matched key; `btoa` throws on a character that is no byte. -/
def generateToken (call : ℕ) (attempt : Attempt) (username : Option JSString) (matchedKey : JSString)
    (wipe : Bool) : AuthState :=
  let payload := s.tokenPayload config attempt matchedKey wipe
  if (stringifyPayload payload).units.all fun unit => unit.val < 256 then
    { s.move call (.authenticated ⟨some payload, none⟩) with
      issued := ⟨call, attempt, username, matchedKey, payload⟩ :: s.issued }
  else s.move call (.threw .error)

def userNotFoundError (attempt : Attempt) : JSString :=
  ("User \"" : JSString) ++ attempt.principalLabel
    ++ ("\" is not found, or has no active access grant on this server. " : JSString)
    ++ ("The tenant's directory database may not have been synced to this server yet, " : JSString)
    ++ ("or the access was revoked." : JSString)

/-- For a user or a principal. -/
def unknownDeviceError (who : JSString) : JSString :=
  ("This device's signing key is not yet in the tenant directory on this server for " : JSString)
    ++ who ++ (". " : JSString)
    ++ ("After the administrator approved the join request, they must sync the directory database "
      : JSString)
    ++ ("to this server before the new device can connect." : JSString)

def quoted (s : JSString) : JSString := ("\"" : JSString) ++ s ++ ("\"" : JSString)

/-- The first key under which a signature verifies. -/
def matchKey (attempt : Attempt) (verifyPems : List JSString) : Option JSString :=
  verifyPems.find? fun key => verifySignature attempt.challenge.challenge attempt.signature key

/-- The candidates, all without white space, are there and the named key is one of them. -/
def checkCandidates (call : ℕ) (attempt : Attempt) (username : JSString)
    (candidateKeys : List JSString) : AuthState :=
  let named := attempt.challenge.signingPublicKey.map stripWhiteSpace
  let candidateKeys := if candidateKeys.isEmpty then named.toList else candidateKeys
  if candidateKeys.isEmpty then s.fail call (userNotFoundError attempt)
  else if named.any fun key => !key.isEmpty && key ∉ candidateKeys then
    s.fail call (unknownDeviceError (quoted attempt.principalLabel))
  else s.move call (.verifying attempt username)

/-- The keys are tried; a match is looked up once more. -/
def tryKeys (call : ℕ) (attempt : Attempt) (username : JSString) (verifyPems : List JSString) :
    AuthState :=
  match matchKey verifySignature attempt verifyPems with
  | none => s.fail call "Invalid signature"
  | some matchedKey => s.move call (.flagging attempt username matchedKey)

/-- A challenge that resolves to no user is matched with its own key. -/
def authenticateByKey (call : ℕ) (attempt : Attempt) : AuthState :=
  if attempt.fallbackPems.isEmpty then s.fail call (userNotFoundError attempt)
  else
    match matchKey verifySignature attempt attempt.fallbackPems with
    | none => s.fail call "Invalid signature"
    | some matchedKey => s.generateToken config call attempt none matchedKey false

/-- A challenge is marked as used. -/
def mark (challenge : JSString) (authChallenge : AuthChallenge) : AuthState :=
  { s with challenges := s.challenges.set challenge { authChallenge with used := true } }

/-- The synchronous part of `authenticate`: a challenge is used once. -/
def authenticate (call : ℕ) (challenge : JSString) (signature : List UInt8) : AuthState :=
  match s.challenges.get? challenge with
  | none => s.fail call "Challenge not found or expired"
  | some authChallenge =>
    if s.now > authChallenge.expiresAt then
      { s.fail call "Challenge expired" with challenges := s.challenges.delete challenge }
    else if authChallenge.used then s.fail call "Challenge already used"
    else
      let attempt : Attempt := ⟨authChallenge, signature⟩
      let s' := s.mark challenge authChallenge
      match authChallenge.username, authChallenge.signingPublicKey with
      | some username, _ => s'.move call (.candidates attempt username)
      | none, some signingPublicKey => s'.move call (.resolving attempt signingPublicKey)
      | none, none => s'.authenticateByKey config verifySignature call attempt

/-- The part of `validateToken` before it asks the directory. -/
def validateToken (call : ℕ) (token : NetworkAuthTokenPayload) : AuthState :=
  if !(s.issued.any fun issue => issue.payload = token) then s.move call (.validated none)
  else if token.exp < s.now / 1000 then s.move call (.validated none)
  else if token.wipe then s.move call (.validated (some token))
  else
    match token.deviceSigningKey with
    | some deviceKey => s.move call (.tokenUser token deviceKey)
    | none => s.move call (.tokenRevoked token token.sub false)

/-! ## Steps -/

/-- `getSigningKeyUniverse`, which has no keys when the directory fails. -/
def getSigningKeyUniverse (fails : Bool) (username : JSString) : SigningKeyUniverse :=
  if fails then ⟨[], []⟩ else s.directory.getUserSigningKeyUniverse username

/-- A call goes on with the answer of the directory, or with its failure. -/
def next (call : ℕ) (fails : Bool) (uuid : JSString) : AuthPhase → AuthState
  | .userKeys username signingPublicKey =>
    if fails then s.move call (.threw .error)
    else
      match s.directory.getUserPublicKeys username, signingPublicKey with
      | none, _ => s.move call (.wipeUniverse username signingPublicKey)
      | some _, some named => s.move call (.knownKeys username named)
      | some _, none => s.storeChallenge config call uuid (some username) none
  | .wipeUniverse username signingPublicKey =>
    if (s.getSigningKeyUniverse fails username).wipeRequested.length > 0 then
      s.storeChallenge config call uuid (some username) signingPublicKey
    else s.move call (.userRevoked username)
  | .userRevoked username =>
    if fails then s.move call (.threw .error)
    else if s.directory.isUserRevoked username then
      s.throwNetwork call .userRevoked (("User \"" : JSString) ++ username
        ++ ("\" has no active access grant for this tenant on this server. " : JSString)
        ++ ("The access may have been revoked, or the tenant's directory database may not have "
          : JSString)
        ++ ("been synced to this server yet. Ask the tenant administrator to sync the directory."
          : JSString))
    else
      s.throwNetwork call .userNotFound (("User \"" : JSString) ++ username
        ++ ("\" is not found in this server's tenant directory. " : JSString)
        ++ ("The user may not have been registered yet, or the tenant's directory database may "
          : JSString)
        ++ ("not have been synced to this server yet. Ask the tenant administrator to sync the directory."
          : JSString))
  | .knownKeys username named =>
    let keys := (s.getSigningKeyUniverse fails username).all
    if keys.isEmpty then s.move call (.knownPrimary username named)
    else if stripWhiteSpace named ∈ keys.map stripWhiteSpace then
      s.storeChallenge config call uuid (some username) (some named)
    else s.throwNetwork call .userNotFound
      (unknownDeviceError (("user " : JSString) ++ quoted username))
  | .knownPrimary username named =>
    if fails then s.move call (.threw .error)
    else if (s.directory.getUserPublicKeys username).any fun key =>
        stripWhiteSpace key = stripWhiteSpace named then
      s.storeChallenge config call uuid (some username) (some named)
    else s.throwNetwork call .userNotFound
      (unknownDeviceError (("user " : JSString) ++ quoted username))
  | .userByKey named =>
    if fails then s.move call (.threw .error)
    else
      match s.directory.getUserBySigningPublicKey named with
      | some username => s.storeChallenge config call uuid (some username) (some named)
      | none => s.throwNetwork call .userNotFound
          (("No active access grant is known for the provided signing key on this server. " : JSString)
            ++ ("The access may have been revoked, or the tenant's directory database may not have "
              : JSString)
            ++ ("been synced to this server yet. Ask the tenant administrator to sync the directory."
              : JSString))
  | .resolving attempt named =>
    if fails then s.move call (.threw .error)
    else
      match orUndefined (s.directory.getUserBySigningPublicKey named) with
      | some username => s.move call (.candidates attempt username)
      | none => s.authenticateByKey config verifySignature call attempt
  | .candidates attempt username =>
    let keys := (s.getSigningKeyUniverse fails username).all
    if keys.isEmpty then s.move call (.candidatePrimary attempt username)
    else s.checkCandidates call attempt username (keys.map stripWhiteSpace)
  | .candidatePrimary attempt username =>
    if fails then s.move call (.threw .error)
    else s.checkCandidates call attempt username
      ((s.directory.getUserPublicKeys username).map stripWhiteSpace).toList
  | .verifying attempt username =>
    let verifyPems := (s.getSigningKeyUniverse fails username).all
    if verifyPems.isEmpty then s.move call (.verifyingPrimary attempt username)
    else s.tryKeys verifySignature call attempt username verifyPems
  | .verifyingPrimary attempt username =>
    if fails then s.move call (.threw .error)
    else
      match s.directory.getUserPublicKeys username with
      | some key => s.tryKeys verifySignature call attempt username [key]
      | none => s.tryKeys verifySignature call attempt username attempt.fallbackPems
  | .flagging attempt username matchedKey =>
    s.generateToken config call attempt (some username) matchedKey
      (matchedKey ∈ (s.getSigningKeyUniverse fails username).wipeRequested)
  | .tokenUser payload deviceKey =>
    if fails then s.move call (.validated none)
    else s.move call (.tokenUniverse payload deviceKey
      ((orUndefined (s.directory.getUserBySigningPublicKey deviceKey)).getD payload.sub))
  | .tokenUniverse payload deviceKey username =>
    if fails then s.move call (.validated none)
    else s.move call (.tokenRevoked payload username
      (deviceKey ∉ (s.directory.getUserSigningKeyUniverse username).active))
  | .tokenRevoked payload username keyInactive =>
    if fails || keyInactive || s.directory.isUserRevoked username then s.move call (.validated none)
    else s.move call (.validated (some payload))
  | phase => s.move call phase

end AuthState

/-- A call begins or goes on, the directory changes, or time passes. -/
inductive AuthEvent where
  | changeDirectory (directory : AuthDirectory)
  | wait (ms : ℕ)
  | generateChallenge (call : ℕ) (username signingPublicKey : Option JSString)
  | authenticate (call : ℕ) (challenge : JSString) (signature : List UInt8)
  | validateToken (call : ℕ) (token : NetworkAuthTokenPayload)
  | next (call : ℕ) (fails : Bool) (uuid : JSString)

variable (config : AuthConfig) (verifySignature : JSString → List UInt8 → JSString → Bool)

/-- A call number is used once. -/
def authStep (s : AuthState) : AuthEvent → AuthState
  | .changeDirectory directory => { s with directory }
  | .wait ms => { s with now := s.now + ms }
  | .generateChallenge call username signingPublicKey =>
    if (s.calls call).isSome then s else s.generateChallenge call username signingPublicKey
  | .authenticate call challenge signature =>
    if (s.calls call).isSome then s
    else s.authenticate config verifySignature call challenge signature
  | .validateToken call token => if (s.calls call).isSome then s else s.validateToken call token
  | .next call fails uuid => (s.calls call).elim s (s.next config verifySignature call fails uuid)

end MindooDB
