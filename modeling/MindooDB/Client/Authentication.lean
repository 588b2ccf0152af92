import MindooDB.Lib.Run
import MindooDB.Sealed.UserNames

/-!
# Client/Authentication — the tokens of the network stores

`ensureAuthenticated`, `performAuthentication` and what clears their caches, of
`appendonlystores/network/ClientNetworkContentAddressedStore.ts`.  Stores of one process share a
token and an authentication in flight if they talk to one transport under one username; the key that
signs is no part of what they share by.  What stands between two awaits is one step.

An authentication is named after the request that started it.  A token carries the key that its
challenge was signed with.
-/

namespace MindooDB

open Function

namespace ClientAuth

/-- What a store is created with. -/
structure StoreConfig where
  transportIdentity : Option JSString := none
  username : JSString
  signingKey : JSString
  signingPublicKeyPem : Option JSString := none

structure SyncAuthOverride where
  username : JSString
  signingKey : JSString
  signingPublicKey : Option JSString := none

/-- What the text of a token says of its expiry: a date, nothing that can be read, or no three parts. -/
inductive TokenExpiry where
  | jwt (exp : ℤ)
  | unreadable
  | notJwt
  deriving DecidableEq

structure AccessToken where
  authentication : ℕ
  /-- The key that signed the challenge. -/
  signer : JSString
  expiry : TokenExpiry
  deriving DecidableEq

/-- The expiry of a new token, in milliseconds. -/
def TokenExpiry.tokenExpiry (started previous : ℤ) : TokenExpiry → ℤ
  | .jwt exp => exp * 1000
  | .unreadable => started + 3600000
  | .notJwt => previous

/-- What the stores of one key share. -/
structure SharedAuthenticationState where
  accessToken : Option AccessToken := none
  tokenExpiry : ℤ := 0
  authenticationPromise : Option ℕ := none

/-- The fields of a store that change. -/
structure StoreState where
  accessToken : Option AccessToken := none
  tokenExpiry : ℤ := 0
  authenticationPromise : Option ℕ := none
  syncAuthOverride : Option SyncAuthOverride := none

/-- Where a call of `performAuthentication` stands. -/
inductive AuthenticationPhase where
  | requestingChallenge (username signingPublicKey : Option JSString)
  | signing (challenge signingKey : JSString)
  | authenticating (challenge signingKey : JSString)
  | resolved (token : AccessToken)
  | rejected
  deriving DecidableEq

/-- A call of `performAuthentication`: whose, for which shared state, since when. -/
structure Authentication where
  store : ℕ
  sharedKey : JSString
  started : ℤ
  phase : AuthenticationPhase
  deriving DecidableEq

/-- Where a call of `ensureAuthenticated` stands. -/
inductive RequestPhase where
  /-- It returned the promise of its store. -/
  | awaiting (authentication : ℕ)
  /-- It awaits the shared promise. -/
  | joined (authentication : ℕ) (sharedKey : JSString)
  /-- It awaits the authentication that it started. -/
  | started (sharedKey : JSString)
  | authenticated (token : AccessToken)
  | failed
  deriving DecidableEq

/-- A request, and the signing key of its store when it asked for the token. -/
structure Request where
  store : ℕ
  signingKey : JSString
  phase : RequestPhase
  deriving DecidableEq

structure State where
  now : ℤ := 0
  stores : ℕ → StoreState := fun _ => {}
  shared : JSString → SharedAuthenticationState := fun _ => {}
  authentications : ℕ → Option Authentication := fun _ => none
  requests : ℕ → Option Request := fun _ => none

/-- `pem.trim() || undefined`. -/
def trimmedPem (pem : Option JSString) : Option JSString :=
  (pem.map JSString.trim).filter fun pem => !pem.isEmpty

def buildSharedAuthenticationKey (config : StoreConfig) (username : JSString) : JSString :=
  config.transportIdentity.getD "unknown" ++ ("::" : JSString) ++ username

namespace StoreState

variable (config : StoreConfig) (store : StoreState)

def activeUsername : JSString :=
  (store.syncAuthOverride.map SyncAuthOverride.username).getD config.username

/-- The key of the override, or of the store. -/
def activeSigningKey : JSString :=
  (store.syncAuthOverride.map SyncAuthOverride.signingKey).getD config.signingKey

def activeSigningPublicKeyPem : Option JSString :=
  (trimmedPem (store.syncAuthOverride.bind SyncAuthOverride.signingPublicKey)).or
    (trimmedPem config.signingPublicKeyPem)

def sharedKey : JSString := buildSharedAuthenticationKey config (store.activeUsername config)

end StoreState

namespace State

variable (config : ℕ → StoreConfig) (s : State)

def setStore (store : ℕ) (state : StoreState) : State :=
  { s with stores := update s.stores store state }

def setShared (sharedKey : JSString) (state : SharedAuthenticationState) : State :=
  { s with shared := update s.shared sharedKey state }

def setAuthentication (authentication : ℕ) (state : Authentication) : State :=
  { s with authentications := update s.authentications authentication (some state) }

def setRequest (request : ℕ) (state : Request) : State :=
  { s with requests := update s.requests request (some state) }

section Set

variable (store authentication request : ℕ) (key : JSString) (own : StoreState)
  (common : SharedAuthenticationState) (a : Authentication) (r : Request)

@[simp] theorem stores_setStore :
    (s.setStore store own).stores = update s.stores store own := rfl
@[simp] theorem shared_setStore : (s.setStore store own).shared = s.shared := rfl
@[simp] theorem authentications_setStore :
    (s.setStore store own).authentications = s.authentications := rfl
@[simp] theorem requests_setStore : (s.setStore store own).requests = s.requests := rfl

@[simp] theorem stores_setShared : (s.setShared key common).stores = s.stores := rfl
@[simp] theorem shared_setShared :
    (s.setShared key common).shared = update s.shared key common := rfl
@[simp] theorem authentications_setShared :
    (s.setShared key common).authentications = s.authentications := rfl
@[simp] theorem requests_setShared : (s.setShared key common).requests = s.requests := rfl

@[simp] theorem stores_setAuthentication : (s.setAuthentication authentication a).stores = s.stores := rfl
@[simp] theorem shared_setAuthentication : (s.setAuthentication authentication a).shared = s.shared := rfl
@[simp] theorem authentications_setAuthentication :
    (s.setAuthentication authentication a).authentications
      = update s.authentications authentication (some a) := rfl
@[simp] theorem requests_setAuthentication :
    (s.setAuthentication authentication a).requests = s.requests := rfl

@[simp] theorem stores_setRequest : (s.setRequest request r).stores = s.stores := rfl
@[simp] theorem shared_setRequest : (s.setRequest request r).shared = s.shared := rfl
@[simp] theorem authentications_setRequest :
    (s.setRequest request r).authentications = s.authentications := rfl
@[simp] theorem requests_setRequest :
    (s.setRequest request r).requests = update s.requests request (some r) := rfl

end Set

/-! ## Asking for a token -/

/-- A cached token counts while it is valid for more than a minute. -/
def cached (accessToken : Option AccessToken) (tokenExpiry : ℤ) : Option AccessToken :=
  if tokenExpiry > s.now + 60000 then accessToken else none

/-- The synchronous part of `performAuthentication`. -/
def performAuthentication (store : ℕ) : Authentication :=
  let username := (s.stores store).activeUsername (config store)
  { store
    sharedKey := (s.stores store).sharedKey (config store)
    started := s.now
    phase := .requestingChallenge (if username.trim.isEmpty then none else some username)
      ((s.stores store).activeSigningPublicKeyPem (config store)) }

/-- The synchronous part of `ensureAuthenticated`. -/
def ensureAuthenticated (store request : ℕ) : State :=
  let own := s.stores store
  let sharedKey := own.sharedKey (config store)
  let shared := s.shared sharedKey
  let ask := fun phase : RequestPhase => (⟨store, own.activeSigningKey (config store), phase⟩ : Request)
  match s.cached own.accessToken own.tokenExpiry, s.cached shared.accessToken shared.tokenExpiry,
    own.authenticationPromise, shared.authenticationPromise with
  | some token, _, _, _ => s.setRequest request (ask (.authenticated token))
  | none, some token, _, _ =>
    (s.setStore store { own with accessToken := some token, tokenExpiry := shared.tokenExpiry }).setRequest
      request (ask (.authenticated token))
  | none, none, some promise, _ => s.setRequest request (ask (.awaiting promise))
  | none, none, none, some promise =>
    (s.setStore store { own with authenticationPromise := some promise }).setRequest request
      (ask (.joined promise sharedKey))
  | none, none, none, none =>
    (((s.setAuthentication request (s.performAuthentication config store)).setStore store
      { own with authenticationPromise := some request }).setShared sharedKey
        { shared with authenticationPromise := some request }).setRequest request (ask (.started sharedKey))

/-! ## Authenticating -/

/-- A challenge arrives, and is signed with the key that is active now. -/
def receiveChallenge (authentication : ℕ) (challenge : Option JSString) (a : Authentication) : State :=
  match a.phase with
  | .requestingChallenge .. =>
    s.setAuthentication authentication { a with
      phase := challenge.elim .rejected fun challenge =>
        .signing challenge ((s.stores a.store).activeSigningKey (config a.store)) }
  | _ => s

def signed (authentication : ℕ) (succeeds : Bool) (a : Authentication) : State :=
  match a.phase with
  | .signing challenge signingKey =>
    s.setAuthentication authentication
      { a with phase := if succeeds then .authenticating challenge signingKey else .rejected }
  | _ => s

/-- A token goes to the store and to what it shares. -/
def adopt (authentication : ℕ) (token : AccessToken) (a : Authentication) : State :=
  let tokenExpiry := token.expiry.tokenExpiry a.started (s.stores a.store).tokenExpiry
  ((s.setAuthentication authentication { a with phase := .resolved token }).setStore a.store
    { s.stores a.store with accessToken := some token, tokenExpiry }).setShared a.sharedKey
      { s.shared a.sharedKey with accessToken := some token, tokenExpiry }

/-- The answer to a signed challenge: a token with an expiry, or none. -/
def receiveToken (authentication : ℕ) (expiry : Option TokenExpiry) (a : Authentication) : State :=
  match a.phase with
  | .authenticating _ signingKey =>
    match expiry with
    | some expiry => s.adopt authentication ⟨authentication, signingKey, expiry⟩ a
    | none => s.setAuthentication authentication { a with phase := .rejected }
  | _ => s

/-- What an authentication ended with. -/
def outcome (authentication : ℕ) : Option RequestPhase :=
  (s.authentications authentication).bind fun a =>
    match a.phase with
    | .resolved token => some (.authenticated token)
    | .rejected => some .failed
    | _ => none

/-! ## Having waited -/

/-- A store that joined takes the token, and forgets a promise that is still the shared one. -/
def leave (store : ℕ) (sharedKey : JSString) (result : RequestPhase) : StoreState :=
  let own := s.stores store
  let shared := s.shared sharedKey
  let own := match result with
    | .authenticated token =>
      { own with accessToken := some (shared.accessToken.getD token), tokenExpiry := shared.tokenExpiry }
    | _ => own
  { own with
    authenticationPromise :=
      if own.authenticationPromise = shared.authenticationPromise then none else own.authenticationPromise }

/-- The shared promise goes when it is still that of the store. -/
def clearPromise (store : ℕ) (sharedKey : JSString) : SharedAuthenticationState :=
  let shared := s.shared sharedKey
  { shared with
    authenticationPromise :=
      if shared.authenticationPromise = (s.stores store).authenticationPromise then none
      else shared.authenticationPromise }

/-- A request goes on when what it waits for has ended. -/
def resume (request : ℕ) (r : Request) : State :=
  match r.phase with
  | .awaiting authentication =>
    (s.outcome authentication).elim s fun result => s.setRequest request { r with phase := result }
  | .joined authentication sharedKey =>
    (s.outcome authentication).elim s fun result =>
      (s.setStore r.store (s.leave r.store sharedKey result)).setRequest request { r with phase := result }
  | .started sharedKey =>
    (s.outcome request).elim s fun result =>
      ((s.setShared sharedKey (s.clearPromise r.store sharedKey)).setStore r.store
        { s.stores r.store with authenticationPromise := none }).setRequest request
          { r with phase := result }
  | _ => s

/-! ## Clearing -/

def clearSharedAuthenticationState (sharedKey : JSString) : State := s.setShared sharedKey {}

/-- The store forgets its token. -/
def clearAuthCache (store : ℕ) : State :=
  let sharedKey := (s.stores store).sharedKey (config store)
  (s.setStore store { s.stores store with accessToken := none, tokenExpiry := 0 }).setShared sharedKey
    { s.shared sharedKey with accessToken := none, tokenExpiry := 0 }

def setSyncAuthOverride (store : ℕ) (override : Option SyncAuthOverride) : State :=
  ((s.setStore store { s.stores store with syncAuthOverride := override }).clearAuthCache config
    store).clearSharedAuthenticationState ((s.stores store).sharedKey (config store))

def clearSyncAuthOverride (store : ℕ) : State :=
  if (s.stores store).syncAuthOverride.isSome then s.setSyncAuthOverride config store none else s

def refreshAuthentication (store request : ℕ) : State :=
  (s.clearAuthCache config store).ensureAuthenticated config store request

end State

/-- A request begins or goes on, an authentication hears from the server, the identity changes, or
time passes. -/
inductive Event where
  | wait (ms : ℕ)
  | ensureAuthenticated (store request : ℕ)
  | refreshAuthentication (store request : ℕ)
  | clearAuthCache (store : ℕ)
  | setSyncAuthOverride (store : ℕ) (override : Option SyncAuthOverride)
  | clearSyncAuthOverride (store : ℕ)
  | receiveChallenge (authentication : ℕ) (challenge : Option JSString)
  | sign (authentication : ℕ) (succeeds : Bool)
  | receiveToken (authentication : ℕ) (expiry : Option TokenExpiry)
  | resume (request : ℕ)

variable (config : ℕ → StoreConfig)

/-- A request number is used once. -/
def step (s : State) : Event → State
  | .wait ms => { s with now := s.now + ms }
  | .ensureAuthenticated store request =>
    if (s.requests request).isSome then s else s.ensureAuthenticated config store request
  | .refreshAuthentication store request =>
    if (s.requests request).isSome then s else s.refreshAuthentication config store request
  | .clearAuthCache store => s.clearAuthCache config store
  | .setSyncAuthOverride store override => s.setSyncAuthOverride config store override
  | .clearSyncAuthOverride store => s.clearSyncAuthOverride config store
  | .receiveChallenge authentication challenge =>
    (s.authentications authentication).elim s (s.receiveChallenge config authentication challenge)
  | .sign authentication succeeds =>
    (s.authentications authentication).elim s (s.signed authentication succeeds)
  | .receiveToken authentication expiry =>
    (s.authentications authentication).elim s (s.receiveToken authentication expiry)
  | .resume request => (s.requests request).elim s (s.resume request)

end ClientAuth

end MindooDB
