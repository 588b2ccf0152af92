import MindooDB.Directory.GrantKeyLists

/-!
# Server/Directory — what a directory answers to the sign-in

The four questions that `AuthenticationService` asks of a tenant directory, with what every answer
keeps to: the primary key of a user is active, and a revoked user has no active key.
`TenantDirectory.answers` are those of `BaseMindooTenantDirectory`, from its grant documents.
-/

namespace MindooDB

structure SigningKeyUniverse where
  active : List JSString
  wipeRequested : List JSString
  deriving DecidableEq

/-- **A directory at one moment**, as the sign-in sees it. -/
structure AuthDirectory where
  /-- The signing key. -/
  getUserPublicKeys : JSString → Option JSString
  /-- The username. -/
  getUserBySigningPublicKey : JSString → Option JSString
  getUserSigningKeyUniverse : JSString → SigningKeyUniverse
  isUserRevoked : JSString → Bool
  primary_active : ∀ username key, getUserPublicKeys username = some key →
    key ∈ (getUserSigningKeyUniverse username).active
  active_of_revoked : ∀ username, isUserRevoked username = true →
    (getUserSigningKeyUniverse username).active = []

namespace AuthDirectory

variable (directory : AuthDirectory)

/-- A key is an active key of a user, or the target of a wipe directive. -/
def InUniverse (username key : JSString) : Prop :=
  key ∈ (directory.getUserSigningKeyUniverse username).active
    ∨ key ∈ (directory.getUserSigningKeyUniverse username).wipeRequested

/-- A key is an active key of a user who is not revoked. -/
def IsActive (username key : JSString) : Prop :=
  key ∈ (directory.getUserSigningKeyUniverse username).active
    ∧ directory.isUserRevoked username = false

variable {directory}

theorem isActive_iff {username key : JSString} :
    directory.IsActive username key ↔ key ∈ (directory.getUserSigningKeyUniverse username).active := by
  refine ⟨And.left, fun h => ⟨h, ?_⟩⟩
  rcases hrevoked : directory.isUserRevoked username with _ | _
  · rfl
  · rw [directory.active_of_revoked username hrevoked] at h
    exact nomatch h

end AuthDirectory

/-! ## Grant documents -/

/-- The documents of a directory, oldest first, and the names that its cache keeps of keys. -/
structure TenantDirectory where
  docs : List JsonObject
  userLookupCache : LinkedMap JSString JSString := ∅

namespace TenantDirectory

variable (directory : TenantDirectory) (usernameHashCandidates : JSString → List JSString)

/-- The grants of a user, who may be named by a hash. -/
def findGrantAccessDocuments (username : JSString) : List JsonObject :=
  directory.docs.filter fun data =>
    Json.isString (data.field "form") "useroperation" && Json.isString (data.field "type") "grantaccess"
      && (Json.asString? (data.field "username_hash")).any fun hash =>
        hash = username || hash ∈ usernameHashCandidates username

/-- The grants that still carry keys. -/
def activeDocs (username : JSString) : List JsonObject :=
  (directory.findGrantAccessDocuments usernameHashCandidates username).filter fun data =>
    (extractSigningPublicKeys data).length > 0

def getUserPublicKeys (username : JSString) : Option JSString := do
  let data ← (directory.activeDocs usernameHashCandidates username).getLast?
  let signingPublicKey ← (extractSigningPublicKeys data).head?
  let _ ← (extractEncryptionPublicKeys data).head?
  some signingPublicKey

def getUserBySigningPublicKey (publicKey : JSString) : Option JSString :=
  match directory.userLookupCache.get? publicKey with
  | some username => some username
  | none =>
    if (stripWhiteSpace publicKey).isEmpty then none
    else
      (directory.userLookupCache.toList.find? fun lookup =>
        stripWhiteSpace lookup.1 = stripWhiteSpace publicKey).map Prod.snd

def getUserSigningKeyUniverse (username : JSString) : SigningKeyUniverse :=
  let grants := directory.findGrantAccessDocuments usernameHashCandidates username
  { active := (LinkedSet.ofList (grants.flatMap extractSigningPublicKeys)).toList
    wipeRequested := (LinkedSet.ofList (grants.flatMap extractWipeRequestedSigningKeys)).toList }

/-- None of the grants has a signing key. -/
def isUserRevoked (username : JSString) : Bool :=
  !(directory.findGrantAccessDocuments usernameHashCandidates username).any fun data =>
    (extractSigningPublicKeys data).length > 0

/-- **The answers of a tenant directory.** -/
def answers : AuthDirectory where
  getUserPublicKeys := directory.getUserPublicKeys usernameHashCandidates
  getUserBySigningPublicKey := directory.getUserBySigningPublicKey
  getUserSigningKeyUniverse := directory.getUserSigningKeyUniverse usernameHashCandidates
  isUserRevoked := directory.isUserRevoked usernameHashCandidates
  primary_active username key h := by
    simp only [getUserPublicKeys, Option.bind_eq_bind, Option.bind_eq_some_iff] at h
    obtain ⟨data, hlast, key', hhead, _, -, heq⟩ := h
    obtain rfl := Option.some.inj heq
    rw [getUserSigningKeyUniverse, ← LinkedSet.mem_def, LinkedSet.mem_ofList, List.mem_flatMap]
    exact ⟨data, (List.mem_filter.mp (List.mem_of_getLast? hlast)).1, List.mem_of_head? hhead⟩
  active_of_revoked username h := by
    rw [getUserSigningKeyUniverse]
    have hnone : (directory.findGrantAccessDocuments usernameHashCandidates username).flatMap
        extractSigningPublicKeys = [] := by
      rw [isUserRevoked, Bool.not_eq_true', List.any_eq_false] at h
      refine List.flatMap_eq_nil_iff.mpr fun data hdata => ?_
      exact List.eq_nil_of_length_eq_zero (by simpa using h data hdata)
    rw [hnone]
    rfl

end TenantDirectory

end MindooDB
