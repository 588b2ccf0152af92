import MindooDB.Client.Authentication

/-!
# Client/TokenInvariant — what the stores keep between two steps

Stores share tokens by transport and username.  `KeepsApart` asks of a step that nobody signs with two
keys under one name, that no store changes its name while it holds a promise, that an authentication
which another store has joined does not fail, and that nobody asks between a failure and the moment
in which the store that started the authentication hears of it.

What such steps keep is `State.Good`: every token and every promise is for the key of the name it is
kept under, and of all requests of a store at most one holds its promise.
-/


namespace MindooDB

open Function Option

namespace ClientAuth

/-- Whether a request is the one that holds the promise of its store. -/
def RequestPhase.holds : RequestPhase → Bool
  | .joined .. | .started _ => true
  | _ => false

/-- Whether a request waits for an authentication that it started. -/
def RequestPhase.isStarted : RequestPhase → Bool
  | .started _ => true
  | _ => false

/-- The authentication that a request waits for. -/
def Request.waitsFor (request : ℕ) (r : Request) : Option ℕ :=
  match r.phase with
  | .awaiting authentication | .joined authentication _ => some authentication
  | .started _ => some request
  | _ => none

def State.rejected (s : State) (authentication : ℕ) : Prop :=
  ∃ a, s.authentications authentication = some a ∧ a.phase = .rejected

section

variable (config : ℕ → StoreConfig) (keyOf : JSString → JSString)

/-- A store has one name as long as it holds a promise, and signs under it with its key. -/
def State.Switches (s : State) (store : ℕ) (override : Option SyncAuthOverride) : Prop :=
  (∀ o ∈ override, o.signingKey = keyOf (buildSharedAuthenticationKey (config store) o.username))
    ∧ (({ s.stores store with syncAuthOverride := override } : StoreState).activeUsername (config store)
        = (s.stores store).activeUsername (config store)
      ∨ (s.stores store).authenticationPromise = none)

/-- The store that started an authentication has heard of its failure. -/
def State.Heard (s : State) : Prop :=
  ∀ authentication r, s.rejected authentication → s.requests authentication = some r →
    r.phase.isStarted = false

/-- No other store has joined an authentication. -/
def State.Unshared (s : State) (authentication : ℕ) : Prop :=
  ∀ a, s.authentications authentication = some a → ∀ store,
    (s.stores store).authenticationPromise = some authentication → store = a.store

/-- **What keeps the identities apart**: under one name one key signs, a name changes only while no
promise is held, an authentication that fails is not shared, and nobody asks before its store has
heard of the failure. -/
def KeepsApart (s : State) : Event → Prop
  | .setSyncAuthOverride store override => s.Switches config keyOf store override
  | .clearSyncAuthOverride store => s.Switches config keyOf store none
  | .ensureAuthenticated .. | .refreshAuthentication .. => s.Heard
  | .receiveChallenge authentication none | .sign authentication false
  | .receiveToken authentication none => s.Unshared authentication
  | _ => True

/-! ## What holds between two steps -/

/-- An authentication is for a shared state. -/
def State.IsFor (s : State) (authentication : ℕ) (sharedKey : JSString) : Prop :=
  ∃ a, s.authentications authentication = some a ∧ a.sharedKey = sharedKey

/-- The request that started an authentication waits for it. -/
def State.Runs (s : State) (authentication : ℕ) (a : Authentication) : Prop :=
  ∃ r, s.requests authentication = some r ∧ r.store = a.store ∧ r.phase = .started a.sharedKey

def Authentication.Good (s : State) (authentication : ℕ) (a : Authentication) : Prop :=
  match a.phase with
  | .requestingChallenge .. => s.Runs authentication a
  | .signing _ signingKey | .authenticating _ signingKey =>
    signingKey = keyOf a.sharedKey ∧ s.Runs authentication a
  | .resolved token => token.signer = keyOf a.sharedKey
  | .rejected => True

def Request.Good (s : State) (request : ℕ) (r : Request) : Prop :=
  match r.phase with
  | .awaiting authentication => ∃ sharedKey, s.IsFor authentication sharedKey
      ∧ keyOf sharedKey = r.signingKey
  | .joined authentication sharedKey => s.IsFor authentication sharedKey
      ∧ keyOf sharedKey = r.signingKey
      ∧ (s.stores r.store).authenticationPromise = some authentication
  | .started sharedKey => (∃ a, s.authentications request = some a ∧ a.store = r.store
        ∧ a.sharedKey = sharedKey)
      ∧ keyOf sharedKey = r.signingKey
      ∧ (s.stores r.store).authenticationPromise = some request
  | .authenticated token => token.signer = r.signingKey
  | .failed => True

/-- **What holds between two steps.** -/
structure State.Good (s : State) : Prop where
  active : ∀ i, (s.stores i).activeSigningKey (config i) = keyOf ((s.stores i).sharedKey (config i))
  own : ∀ i token, (s.stores i).accessToken = some token →
    token.signer = keyOf ((s.stores i).sharedKey (config i))
  shared : ∀ key token, (s.shared key).accessToken = some token → token.signer = keyOf key
  promise : ∀ i p, (s.stores i).authenticationPromise = some p →
    s.IsFor p ((s.stores i).sharedKey (config i))
  sharedPromise : ∀ key p, (s.shared key).authenticationPromise = some p → s.IsFor p key
  named : ∀ p a, s.authentications p = some a → (s.requests p).isSome = true
  authentication : ∀ p a, s.authentications p = some a → a.Good keyOf s p
  request : ∀ r q, s.requests r = some q → q.Good keyOf s r
  alone : ∀ r r' q q', s.requests r = some q → s.requests r' = some q' → q.store = q'.store →
    q.phase.holds = true → q'.phase.holds = true → r = r'
  heard : ∀ p a, s.authentications p = some a → a.phase = .rejected →
    (s.Runs p a ∧ ∀ i, (s.stores i).authenticationPromise = some p → i = a.store)
      ∨ (∀ i, (s.stores i).authenticationPromise ≠ some p)
        ∧ ∀ key, (s.shared key).authenticationPromise ≠ some p

end

namespace State

variable {config : ℕ → StoreConfig} {keyOf : JSString → JSString} {s : State}

/-! ## The parts of a state -/

theorem update_eq_some {α : Type*} {f : ℕ → Option α} {i j : ℕ} {a b : α}
    (h : update f i (some a) j = some b) : j = i ∧ b = a ∨ j ≠ i ∧ f j = some b := by
  rcases eq_or_ne j i with rfl | hne
  · rw [update_self] at h
    exact .inl ⟨rfl, (some.inj h).symm⟩
  · rw [update_of_ne hne] at h
    exact .inr ⟨hne, h⟩

/-- What a new store agrees with the old one on, all stores agree on. -/
theorem update_of_eq {ι α β : Type*} [DecidableEq ι] {states : ι → α} {i : ι} {state : α} (f : α → β)
    (h : f state = f (states i)) (j : ι) : f (update states i state j) = f (states j) := by
  rcases eq_or_ne j i with rfl | hne
  · rw [update_self, h]
  · rw [update_of_ne hne]

/-- A request depends on no phase of an authentication, and on its store only as it holds the
promise. -/
theorem requestGood_mono {s' : State} {request : ℕ} {r : Request} (h : r.Good keyOf s request)
    (horigin : ∀ p a, s.authentications p = some a → ∃ a', s'.authentications p = some a'
      ∧ a'.store = a.store ∧ a'.sharedKey = a.sharedKey)
    (hpromise : r.phase.holds = true → (s'.stores r.store).authenticationPromise
      = (s.stores r.store).authenticationPromise) : r.Good keyOf s' request := by
  have hfor : ∀ {p key}, s.IsFor p key → s'.IsFor p key := by
    rintro p key ⟨a, ha, rfl⟩
    obtain ⟨a', ha', -, hkey⟩ := horigin p a ha
    exact ⟨a', ha', hkey⟩
  unfold Request.Good at h ⊢
  cases hphase : r.phase with
  | awaiting p =>
    rw [hphase] at h
    obtain ⟨key, hkey, heq⟩ := h
    exact ⟨key, hfor hkey, heq⟩
  | joined p key =>
    rw [hphase] at h hpromise
    exact ⟨hfor h.1, h.2.1, (hpromise rfl).trans h.2.2⟩
  | started key =>
    rw [hphase] at h hpromise
    obtain ⟨⟨a, ha, hstore, hkey⟩, heq, hown⟩ := h
    obtain ⟨a', ha', hstore', hkey'⟩ := horigin request a ha
    exact ⟨⟨a', ha', hstore'.trans hstore, hkey'.trans hkey⟩, heq, (hpromise rfl).trans hown⟩
  | authenticated token =>
    rw [hphase] at h
    exact h
  | failed => trivial

/-- **A store changes** its name or its token, not the promise it holds. -/
theorem Good.setStore (hs : s.Good config keyOf) {i : ℕ} {store : StoreState}
    (hpromise : store.authenticationPromise = (s.stores i).authenticationPromise)
    (hactive : store.activeSigningKey (config i) = keyOf (store.sharedKey (config i)))
    (htoken : ∀ t, store.accessToken = some t → t.signer = keyOf (store.sharedKey (config i)))
    (hfor : ∀ p, (s.stores i).authenticationPromise = some p →
      s.IsFor p (store.sharedKey (config i))) : (s.setStore i store).Good config keyOf := by
  have hpromises : ∀ j, (update s.stores i store j).authenticationPromise
      = (s.stores j).authenticationPromise := update_of_eq StoreState.authenticationPromise hpromise
  exact
    { active := fun j => by
        rw [stores_setStore]
        rcases eq_or_ne j i with rfl | hne
        · rw [update_self, hactive]
        · rw [update_of_ne hne, hs.active j]
      own := fun j t h => by
        rw [stores_setStore] at h ⊢
        rcases eq_or_ne j i with rfl | hne
        · rw [update_self] at h ⊢
          exact htoken t h
        · rw [update_of_ne hne] at h ⊢
          exact hs.own j t h
      shared := hs.shared
      promise := fun j p h => by
        rw [stores_setStore, hpromises] at h
        rw [stores_setStore]
        rcases eq_or_ne j i with rfl | hne
        · rw [update_self]
          exact hfor p h
        · rw [update_of_ne hne]
          exact hs.promise j p h
      sharedPromise := hs.sharedPromise
      named := hs.named
      authentication := hs.authentication
      request := fun r q h => requestGood_mono (hs.request r q h)
        (fun p a ha => ⟨a, ha, rfl, rfl⟩) fun _ => hpromises _
      alone := hs.alone
      heard := fun p a ha hrejected => by
        rw [stores_setStore]
        simp only [hpromises]
        exact hs.heard p a ha hrejected }

/-- **A store's token** is one of its key. -/
theorem Good.setToken (hs : s.Good config keyOf) (i : ℕ) (token : Option AccessToken) (expiry : ℤ)
    (htoken : ∀ t, token = some t → t.signer = keyOf ((s.stores i).sharedKey (config i))) :
    (s.setStore i { s.stores i with accessToken := token, tokenExpiry := expiry }).Good config
      keyOf :=
  hs.setStore rfl (hs.active i) htoken (hs.promise i)

/-- **The token of a name** is one of its key; the promise may only go. -/
theorem Good.setShared (hs : s.Good config keyOf) (key : JSString) (common : SharedAuthenticationState)
    (htoken : ∀ t, common.accessToken = some t → t.signer = keyOf key)
    (hpromise : ∀ p, common.authenticationPromise = some p →
      (s.shared key).authenticationPromise = some p) :
    (s.setShared key common).Good config keyOf := by
  have hold : ∀ {key' p}, (update s.shared key common key').authenticationPromise = some p →
      (s.shared key').authenticationPromise = some p := by
    intro key' p h
    rcases eq_or_ne key' key with rfl | hne
    · rw [update_self] at h
      exact hpromise p h
    · rwa [update_of_ne hne] at h
  exact
    { active := hs.active
      own := hs.own
      shared := fun key' t h => by
        rcases eq_or_ne key' key with rfl | hne
        · rw [shared_setShared, update_self] at h
          exact htoken t h
        · rw [shared_setShared, update_of_ne hne] at h
          exact hs.shared key' t h
      promise := hs.promise
      sharedPromise := fun key' p h => hs.sharedPromise key' p (hold h)
      named := hs.named
      authentication := hs.authentication
      request := fun r q h => requestGood_mono (hs.request r q h)
        (fun p a ha => ⟨a, ha, rfl, rfl⟩) fun _ => rfl
      alone := hs.alone
      heard := fun p a ha hrejected => (hs.heard p a ha hrejected).imp_right fun hnone =>
        ⟨hnone.1, fun key' h => hnone.2 key' (hold h)⟩ }

/-! ## Authentications -/

variable {a : Authentication} {p r : ℕ} {q : Request} {result : RequestPhase}

/-- **An authentication goes on**; one that fails is nobody else's. -/
theorem Good.setPhase (hs : s.Good config keyOf)
    (ha : s.authentications p = some a) (phase : AuthenticationPhase)
    (hgood : ({ a with phase } : Authentication).Good keyOf s p) (hrejected : phase = .rejected →
      s.Runs p a ∧ ∀ i, (s.stores i).authenticationPromise = some p → i = a.store) :
    (s.setAuthentication p { a with phase }).Good config keyOf := by
  have horigin : ∀ p' b, s.authentications p' = some b → ∃ b',
      (s.setAuthentication p { a with phase }).authentications p' = some b'
        ∧ b'.store = b.store ∧ b'.sharedKey = b.sharedKey := by
    intro p' b hb
    rcases eq_or_ne p' p with rfl | hne
    · obtain rfl := some.inj (ha.symm.trans hb)
      exact ⟨_, update_self _ _ _, rfl, rfl⟩
    · exact ⟨b, (update_of_ne hne _ _).trans hb, rfl, rfl⟩
  have hfor : ∀ {p' key}, s.IsFor p' key → (s.setAuthentication p { a with phase }).IsFor p' key := by
    rintro p' key ⟨b, hb, rfl⟩
    obtain ⟨b', hb', -, hkey⟩ := horigin p' b hb
    exact ⟨b', hb', hkey⟩
  have hcases : ∀ {p' b}, (s.setAuthentication p { a with phase }).authentications p' = some b →
      p' = p ∧ b = { a with phase } ∨ p' ≠ p ∧ s.authentications p' = some b := by
    intro p' b hb
    exact update_eq_some hb
  exact
    { active := hs.active
      own := hs.own
      shared := hs.shared
      promise := fun i p' h => hfor (hs.promise i p' h)
      sharedPromise := fun key p' h => hfor (hs.sharedPromise key p' h)
      named := fun p' b hb => by
        rcases hcases hb with ⟨rfl, -⟩ | ⟨-, hold⟩
        · exact hs.named _ a ha
        · exact hs.named p' b hold
      authentication := fun p' b hb => by
        rcases hcases hb with ⟨rfl, rfl⟩ | ⟨-, hold⟩
        · exact hgood
        · exact hs.authentication p' b hold
      request := fun r q h => requestGood_mono (hs.request r q h) horigin fun _ => rfl
      alone := hs.alone
      heard := fun p' b hb hphase => by
        rcases hcases hb with ⟨rfl, rfl⟩ | ⟨-, hold⟩
        · exact .inl (hrejected hphase)
        · exact hs.heard p' b hold hphase }

/-! ## Requests -/

theorem Runs.isStarted (h : s.Runs p a)
    (hq : s.requests p = some q) : q.phase.isStarted = true := by
  obtain ⟨q', hq', -, hphase⟩ := h
  obtain rfl := some.inj (hq.symm.trans hq')
  rw [hphase]
  rfl

/-- Another request does not stop an authentication. -/
theorem Runs.update {s' : State} (h : s.Runs p a)
    (hrequests : s'.requests = update s.requests r (some q)) (hne : p ≠ r) :
    s'.Runs p a := by
  obtain ⟨q', hq', hstore, hphase⟩ := h
  exact ⟨q', by rw [hrequests, update_of_ne hne, hq'], hstore, hphase⟩

theorem authenticationGood_of_runs {s' : State} {p : ℕ} {a : Authentication} (h : a.Good keyOf s p)
    (ha : s.authentications p = some a)
    (hruns : s.outcome p = none → s.Runs p a → s'.Runs p a) : a.Good keyOf s' p := by
  rw [outcome, ha, bind_some] at hruns
  unfold Authentication.Good at h ⊢
  cases hphase : a.phase with
  | requestingChallenge username pem =>
    rw [hphase] at h hruns
    exact hruns rfl h
  | signing challenge key | authenticating challenge key =>
    rw [hphase] at h hruns
    exact h.imp_right (hruns rfl)
  | resolved token =>
    rw [hphase] at h
    exact h
  | rejected => trivial

section

variable (hs : s.Good config keyOf)

include hs

/-- A request of a store that holds no promise holds none. -/
theorem Good.holds_eq_false (hq : s.requests r = some q)
    (hnone : (s.stores q.store).authenticationPromise = none) :
    q.phase.holds = false := by
  have hgood := hs.request r q hq
  unfold Request.Good at hgood
  cases hphase : q.phase with
  | joined p key | started key =>
    rw [hphase] at hgood
    exact nomatch hnone.symm.trans hgood.2.2
  | _ => rfl

/-- **A request that holds no promise** comes or goes on. -/
theorem Good.setRequest (hbefore : ∀ q', s.requests r = some q' → q'.phase.holds = false)
    (hafter : q.phase.holds = false) (hgood : q.Good keyOf s r) :
    (s.setRequest r q).Good config keyOf := by
  have hcases : ∀ {r' q'}, (s.setRequest r q).requests r' = some q' →
      r' = r ∧ q' = q ∨ r' ≠ r ∧ s.requests r' = some q' := by
    intro r' q' h
    exact update_eq_some h
  have hruns : ∀ {p a}, s.Runs p a → (s.setRequest r q).Runs p a := by
    intro p a h
    refine h.update rfl ?_
    rintro rfl
    obtain ⟨q', hq', -, hphase⟩ := h
    have hholds := hbefore q' hq'
    rw [hphase] at hholds
    exact nomatch hholds
  exact
    { active := hs.active
      own := hs.own
      shared := hs.shared
      promise := hs.promise
      sharedPromise := hs.sharedPromise
      named := fun p a ha => by
        rw [requests_setRequest]
        rcases eq_or_ne p r with rfl | hne
        · rw [update_self]
          rfl
        · rw [update_of_ne hne]
          exact hs.named p a ha
      authentication := fun p a ha => authenticationGood_of_runs (hs.authentication p a ha) ha
        fun _ => hruns
      request := fun r' q' h => by
        rcases hcases h with ⟨rfl, rfl⟩ | ⟨-, hold⟩
        · exact requestGood_mono hgood (fun p a ha => ⟨a, ha, rfl, rfl⟩) fun _ => rfl
        · exact requestGood_mono (hs.request r' q' hold) (fun p a ha => ⟨a, ha, rfl, rfl⟩) fun _ => rfl
      alone := fun r₁ r₂ q₁ q₂ h₁ h₂ hstore hholds₁ hholds₂ => by
        rcases hcases h₁ with ⟨rfl, rfl⟩ | ⟨-, hold₁⟩
        · exact nomatch hafter.symm.trans hholds₁
        · rcases hcases h₂ with ⟨rfl, rfl⟩ | ⟨-, hold₂⟩
          · exact nomatch hafter.symm.trans hholds₂
          · exact hs.alone r₁ r₂ q₁ q₂ hold₁ hold₂ hstore hholds₁ hholds₂
      heard := fun p a ha hrejected => (hs.heard p a ha hrejected).imp_left (And.imp_left hruns) }

/-- **A store takes a promise** that it did not have, and with it a new request, which may have started
what is promised. -/
theorem Good.hold {s' : State} {i r p : ℕ} {q : Request}
    (hnone : (s.stores i).authenticationPromise = none) (hnew : s.requests r = none)
    (hq : q.store = i)
    (hstores : s'.stores
      = update s.stores i { s.stores i with authenticationPromise := some p })
    (hrequests : s'.requests = update s.requests r (some q))
    (htoken : ∀ key, (s'.shared key).accessToken = (s.shared key).accessToken)
    (hpromise : ∀ key p', (s'.shared key).authenticationPromise = some p' →
      (s.shared key).authenticationPromise = some p' ∨ p' = p ∧ s'.IsFor p key)
    (hkept : ∀ p' a, s.authentications p' = some a → s'.authentications p' = some a)
    (hstarted : ∀ p' a, s'.authentications p' = some a →
      s.authentications p' = some a ∨ p' = r ∧ a.Good keyOf s' r ∧ a.phase ≠ .rejected)
    (hfor : s'.IsFor p ((s.stores i).sharedKey (config i))) (hgood : q.Good keyOf s' r)
    (hrejected : ¬s'.rejected p) : s'.Good config keyOf := by
  have hkey : ∀ j, (s'.stores j).sharedKey (config j) = (s.stores j).sharedKey (config j) := fun j => by
    rw [hstores]
    exact update_of_eq (StoreState.sharedKey (config j)) (by rfl) j
  have hother : ∀ {j}, j ≠ i →
      (s'.stores j).authenticationPromise = (s.stores j).authenticationPromise := fun hne => by
    rw [hstores, update_of_ne hne]
  have hself : (s'.stores i).authenticationPromise = some p := by rw [hstores, update_self]
  have hcases : ∀ {r' q'}, s'.requests r' = some q' →
      r' = r ∧ q' = q ∨ r' ≠ r ∧ s.requests r' = some q' := by
    intro r' q' h
    rw [hrequests] at h
    exact update_eq_some h
  have hruns : ∀ {p' a}, s.Runs p' a → s'.Runs p' a := by
    intro p' a h
    refine h.update hrequests ?_
    rintro rfl
    obtain ⟨q', hq', -⟩ := h
    exact nomatch hnew.symm.trans hq'
  have hmono : ∀ {p' key}, s.IsFor p' key → s'.IsFor p' key :=
    fun ⟨a, ha, heq⟩ => ⟨a, hkept _ a ha, heq⟩
  -- no other request of the store holds a promise
  have hfree : ∀ {r' q'}, s.requests r' = some q' → q'.phase.holds = true → q'.store ≠ i :=
    fun hq' hholds heq => nomatch (hs.holds_eq_false hq' (heq ▸ hnone)).symm.trans hholds
  exact
    { active := fun j => by
        rw [hkey, hstores, update_of_eq (StoreState.activeSigningKey (config j)) (by rfl)]
        exact hs.active j
      own := fun j t h => by
        rw [hstores, update_of_eq StoreState.accessToken (by rfl)] at h
        rw [hkey]
        exact hs.own j t h
      shared := fun key t h => hs.shared key t ((htoken key).symm.trans h)
      promise := fun j p' h => by
        rw [hkey]
        rcases eq_or_ne j i with rfl | hne
        · exact some.inj (hself.symm.trans h) ▸ hfor
        · exact hmono (hs.promise j p' ((hother hne).symm.trans h))
      sharedPromise := fun key p' h => by
        rcases hpromise key p' h with hold | ⟨rfl, hnow⟩
        · exact hmono (hs.sharedPromise key p' hold)
        · exact hnow
      named := fun p' a ha => by
        rw [hrequests]
        rcases eq_or_ne p' r with rfl | hne
        · rw [update_self]
          rfl
        · rw [update_of_ne hne]
          rcases hstarted p' a ha with hold | ⟨rfl, -⟩
          · exact hs.named p' a hold
          · exact absurd rfl hne
      authentication := fun p' a ha => by
        rcases hstarted p' a ha with hold | ⟨rfl, hnow, -⟩
        · exact authenticationGood_of_runs (hs.authentication p' a hold) hold fun _ => hruns
        · exact hnow
      request := fun r' q' h => by
        rcases hcases h with ⟨rfl, rfl⟩ | ⟨-, hold⟩
        · exact hgood
        · exact requestGood_mono (hs.request r' q' hold) (fun p' a ha => ⟨a, hkept p' a ha, rfl, rfl⟩)
            fun hholds => hother (hfree hold hholds)
      alone := fun r₁ r₂ q₁ q₂ h₁ h₂ hstore hholds₁ hholds₂ => by
        rcases hcases h₁ with ⟨rfl, rfl⟩ | ⟨-, hold₁⟩ <;> rcases hcases h₂ with ⟨rfl, rfl⟩ | ⟨-, hold₂⟩
        · rfl
        · exact absurd (hstore.symm.trans hq) (hfree hold₂ hholds₂)
        · exact absurd (hstore.trans hq) (hfree hold₁ hholds₁)
        · exact hs.alone r₁ r₂ q₁ q₂ hold₁ hold₂ hstore hholds₁ hholds₂
      heard := fun p' a ha hphase => by
        rcases hstarted p' a ha with hold | ⟨-, -, hnot⟩
        swap
        · exact absurd hphase hnot
        have hne : p' ≠ p := fun heq => hrejected (heq ▸ ⟨a, ha, hphase⟩)
        have howns : ∀ {j}, (s'.stores j).authenticationPromise = some p' →
            (s.stores j).authenticationPromise = some p' := by
          intro j h
          rcases eq_or_ne j i with rfl | hj
          · exact absurd (some.inj (h.symm.trans hself)) hne
          · exact (hother hj).symm.trans h
        rcases hs.heard p' a hold hphase with ⟨hrun, hmine⟩ | ⟨hstore, hshared⟩
        · exact .inl ⟨hruns hrun, fun j h => hmine j (howns h)⟩
        · refine .inr ⟨fun j h => hstore j (howns h), fun key h => ?_⟩
          rcases hpromise key p' h with hold' | ⟨heq, -⟩
          · exact hshared key hold'
          · exact hne heq }

/-- **A request that held the promise of its store** has ended: the store keeps the promise or lets go
of it, and the shared promise stays unless it is the one that ended. -/
theorem Good.release {s' : State} (hq : s.requests r = some q) (hholds : q.phase.holds = true)
    (hresult : result.holds = false) (store : StoreState)
    (hstore : store.syncAuthOverride = (s.stores q.store).syncAuthOverride
      ∧ store.accessToken = (s.stores q.store).accessToken)
    (hpromise : ∀ p, store.authenticationPromise = some p →
      (s.stores q.store).authenticationPromise = some p)
    (hstores : s'.stores = update s.stores q.store store)
    (hrequests : s'.requests = update s.requests r (some { q with phase := result }))
    (hauthentications : s'.authentications = s.authentications)
    (htoken : ∀ key, (s'.shared key).accessToken = (s.shared key).accessToken)
    (hshared : ∀ key p, (s'.shared key).authenticationPromise = some p →
      (s.shared key).authenticationPromise = some p)
    (hgood : ({ q with phase := result } : Request).Good keyOf s r)
    (hended : q.phase.isStarted = true → s.outcome r ≠ none)
    (hgone : q.phase.isStarted = true → store.authenticationPromise ≠ some r
      ∧ ∀ key, (s'.shared key).authenticationPromise ≠ some r) :
    s'.Good config keyOf := by
  have hkey : ∀ j, (s'.stores j).sharedKey (config j) = (s.stores j).sharedKey (config j) := fun j => by
    rw [hstores]
    refine update_of_eq (StoreState.sharedKey (config j)) ?_ j
    rw [StoreState.sharedKey, StoreState.activeUsername, hstore.1]
    rfl
  have howns : ∀ {j p}, (s'.stores j).authenticationPromise = some p →
      (s.stores j).authenticationPromise = some p := by
    intro j p h
    rw [hstores] at h
    rcases eq_or_ne j q.store with rfl | hne
    · rw [update_self] at h
      exact hpromise p h
    · rwa [update_of_ne hne] at h
  have hcases : ∀ {r' q'}, s'.requests r' = some q' →
      r' = r ∧ q' = { q with phase := result } ∨ r' ≠ r ∧ s.requests r' = some q' := by
    intro r' q' h
    rw [hrequests] at h
    exact update_eq_some h
  have horigin : ∀ p a, s.authentications p = some a → ∃ a', s'.authentications p = some a'
      ∧ a'.store = a.store ∧ a'.sharedKey = a.sharedKey :=
    fun p a ha => ⟨a, by rw [hauthentications, ha], rfl, rfl⟩
  have hfor : ∀ {p key}, s.IsFor p key → s'.IsFor p key :=
    fun ⟨a, ha, heq⟩ => ⟨a, by rw [hauthentications, ha], heq⟩
  exact
    { active := fun j => by
        rw [hkey, hstores, update_of_eq (StoreState.activeSigningKey (config j))]
        · exact hs.active j
        · rw [StoreState.activeSigningKey, hstore.1]
          rfl
      own := fun j t h => by
        rw [hstores, update_of_eq StoreState.accessToken hstore.2] at h
        rw [hkey]
        exact hs.own j t h
      shared := fun key t h => hs.shared key t ((htoken key).symm.trans h)
      promise := fun j p h => by
        rw [hkey]
        exact hfor (hs.promise j p (howns h))
      sharedPromise := fun key p h => hfor (hs.sharedPromise key p (hshared key p h))
      named := fun p a ha => by
        rw [hrequests]
        rw [hauthentications] at ha
        rcases eq_or_ne p r with rfl | hne
        · rw [update_self]
          rfl
        · rw [update_of_ne hne]
          exact hs.named p a ha
      authentication := fun p a ha => by
        rw [hauthentications] at ha
        refine authenticationGood_of_runs (hs.authentication p a ha) ha fun hopen hrun => ?_
        refine hrun.update hrequests ?_
        rintro rfl
        exact hended (hrun.isStarted hq) hopen
      request := fun r' q' h => by
        rcases hcases h with ⟨rfl, rfl⟩ | ⟨hne, hold⟩
        · exact requestGood_mono hgood horigin fun h => nomatch hresult.symm.trans h
        · refine requestGood_mono (hs.request r' q' hold) horigin fun hholds' => ?_
          rw [hstores, update_of_ne]
          intro hsame
          exact hne (hs.alone r' r q' q hold hq hsame hholds' hholds)
      alone := fun r₁ r₂ q₁ q₂ h₁ h₂ hsame hholds₁ hholds₂ => by
        rcases hcases h₁ with ⟨rfl, rfl⟩ | ⟨-, hold₁⟩
        · exact nomatch hresult.symm.trans hholds₁
        · rcases hcases h₂ with ⟨rfl, rfl⟩ | ⟨-, hold₂⟩
          · exact nomatch hresult.symm.trans hholds₂
          · exact hs.alone r₁ r₂ q₁ q₂ hold₁ hold₂ hsame hholds₁ hholds₂
      heard := fun p a ha hphase => by
        rw [hauthentications] at ha
        rcases hs.heard p a ha hphase with ⟨hrun, hmine⟩ | ⟨hnone, hcommon⟩
        swap
        · exact .inr ⟨fun j h => hnone j (howns h), fun key h => hcommon key (hshared key p h)⟩
        rcases eq_or_ne p r with rfl | hne
        · obtain ⟨hstore', hshared'⟩ := hgone (hrun.isStarted hq)
          refine .inr ⟨fun j h => ?_, hshared'⟩
          obtain ⟨q', hq', hsame, -⟩ := hrun
          obtain rfl := some.inj (hq.symm.trans hq')
          have hj : j = q.store := (hmine j (howns h)).trans hsame.symm
          rw [hstores, hj, update_self] at h
          exact hstore' h
        · exact .inl ⟨hrun.update hrequests hne, fun j h => hmine j (howns h)⟩ }

end

variable {override : Option SyncAuthOverride}

/-- **A store changes its name**, and has no token. -/
theorem Good.switch (hs : s.Good config keyOf) {i : ℕ} (hconfig : (config i).signingKey
      = keyOf (buildSharedAuthenticationKey (config i) (config i).username))
    (hswitch : s.Switches config keyOf i override) :
    (s.setStore i { s.stores i with
      syncAuthOverride := override, accessToken := none, tokenExpiry := 0 }).Good config keyOf := by
  obtain ⟨hsigns, hname⟩ := hswitch
  refine hs.setStore rfl ?_ nofun fun p h => ?_
  · cases override with
    | none => exact hconfig
    | some o => exact hsigns o rfl
  · rcases hname with hsame | hnone
    · have hfor := hs.promise i p h
      rw [StoreState.sharedKey, ← hsame] at hfor
      exact hfor
    · exact nomatch hnone.symm.trans h

/-! ## Steps -/

theorem cached_eq_some {token : Option AccessToken} {expiry : ℤ} {t : AccessToken}
    (h : s.cached token expiry = some t) : token = some t := by
  rw [cached] at h
  split at h
  · exact h
  · exact nomatch h

/-- **A promise that a store finds** is not of a failed authentication, when the failures were heard. -/
theorem Good.not_rejected (hs : s.Good config keyOf) (hheard : s.Heard) {i : ℕ}
    (hp : (s.stores i).authenticationPromise = some p
      ∨ (s.shared ((s.stores i).sharedKey (config i))).authenticationPromise = some p) :
    ¬s.rejected p := by
  rintro ⟨a, ha, hphase⟩
  rcases hs.heard p a ha hphase with ⟨hrun, -⟩ | ⟨hstore, hshared⟩
  · obtain ⟨q, hq, -, -⟩ := id hrun
    exact nomatch (hheard p q ⟨a, ha, hphase⟩ hq).symm.trans (hrun.isStarted hq)
  · exact hp.elim (hstore i) (hshared _)

/-- **A request that begins** keeps what holds, when its store has heard of every failure. -/
theorem Good.ensureAuthenticated (hs : s.Good config keyOf) (hheard : s.Heard) {i : ℕ}
    (hnew : s.requests r = none) : (s.ensureAuthenticated config i r).Good config keyOf := by
  have hnone : ∀ q, s.requests r = some q → q.phase.holds = false :=
    fun q hq => nomatch hnew.symm.trans hq
  have hactive := hs.active i
  have hfresh := fun {p} => hs.not_rejected (i := i) (p := p) hheard
  generalize hkey : (s.stores i).sharedKey (config i) = key at hactive hfresh
  rcases hown : s.cached (s.stores i).accessToken (s.stores i).tokenExpiry with _ | token
  swap
  · simp only [State.ensureAuthenticated, hown]
    refine hs.setRequest hnone rfl ?_
    exact (hs.own i token (cached_eq_some hown)).trans (hkey ▸ hactive.symm)
  rcases hcommon : s.cached (s.shared key).accessToken (s.shared key).tokenExpiry with _ | token
  swap
  · simp only [State.ensureAuthenticated, hown, hkey, hcommon]
    have htoken := hs.shared _ token (cached_eq_some hcommon)
    refine (hs.setToken i (some token) _ fun t ht => ?_).setRequest hnone rfl (htoken.trans hactive.symm)
    exact hkey ▸ some.inj ht ▸ htoken
  rcases hpromise : (s.stores i).authenticationPromise with _ | p
  swap
  · simp only [State.ensureAuthenticated, hown, hkey, hcommon, hpromise]
    exact hs.setRequest hnone rfl ⟨_, hs.promise i p hpromise, hkey ▸ hactive.symm⟩
  rcases hshared : (s.shared key).authenticationPromise with _ | p
  swap
  · simp only [State.ensureAuthenticated, hown, hkey, hcommon, hpromise, hshared]
    have hfor := hs.sharedPromise _ p hshared
    refine hs.hold (i := i) (r := r) (p := p) hpromise hnew rfl rfl rfl (fun _ => rfl)
      (fun _ _ h => .inl h) (fun _ _ h => h) (fun _ _ h => .inl h) (hkey ▸ hfor) ?_
      (hfresh (.inr hshared))
    exact ⟨hfor, hactive.symm, by simp⟩
  · simp only [State.ensureAuthenticated, hown, hkey, hcommon, hpromise, hshared]
    have hunnamed : s.authentications r = none := by
      rcases ha : s.authentications r with _ | a
      · rfl
      · have hnamed := hs.named r a ha
        rw [hnew] at hnamed
        exact nomatch hnamed
    have hname : (s.performAuthentication config i).sharedKey = key := hkey
    refine hs.hold (i := i) (r := r) (p := r) hpromise hnew rfl rfl rfl
      (fun key' => update_of_eq SharedAuthenticationState.accessToken (by rfl) key') ?_ ?_ ?_
      ⟨_, update_self _ _ _, rfl⟩ ?_ ?_
    · intro key' p h
      rcases eq_or_ne key' key with rfl | hne
      · refine .inr ⟨?_, _, update_self _ _ _, hname⟩
        rw [shared_setRequest, shared_setShared, update_self] at h
        exact (some.inj h).symm
      · rw [shared_setRequest, shared_setShared, update_of_ne hne] at h
        exact .inl h
    · intro p a ha
      have hne : p ≠ r := by
        rintro rfl
        exact nomatch hunnamed.symm.trans ha
      exact (update_of_ne hne _ _).trans ha
    · intro p a ha
      rcases eq_or_ne p r with rfl | hne
      · obtain rfl := some.inj ((update_self p _ _).symm.trans ha)
        exact .inr ⟨rfl, ⟨_, update_self _ _ _, rfl, by rw [hname]⟩, fun h => nomatch h⟩
      · exact .inl ((update_of_ne hne _ _).symm.trans ha)
    · exact ⟨⟨_, update_self _ _ _, rfl, hname⟩, hactive.symm, by simp⟩
    · rintro ⟨a, ha, hphase⟩
      obtain rfl := some.inj ((update_self r _ _).symm.trans ha)
      exact nomatch hphase

theorem outcome_holds (h : s.outcome p = some result) :
    result.holds = false := by
  rw [outcome, bind_eq_some_iff] at h
  obtain ⟨a, -, h⟩ := h
  split at h
  · exact some.inj h ▸ rfl
  · exact some.inj h ▸ rfl
  · exact nomatch h

/-- What an authentication ended with is for its key. -/
theorem Good.outcome (hs : s.Good config keyOf) {key : JSString}
    (hfor : s.IsFor p key) (hkey : keyOf key = q.signingKey)
    (h : s.outcome p = some result) : ({ q with phase := result } : Request).Good keyOf s r := by
  obtain ⟨a, ha, rfl⟩ := hfor
  have hgood := hs.authentication p a ha
  rw [State.outcome, ha, bind_some] at h
  unfold Authentication.Good at hgood
  cases hphase : a.phase with
  | resolved token =>
    rw [hphase] at h hgood
    obtain rfl := some.inj h
    exact hgood.trans hkey
  | rejected =>
    rw [hphase] at h
    obtain rfl := some.inj h
    trivial
  | _ =>
    rw [hphase] at h
    exact nomatch h

theorem leave_authenticationPromise (i : ℕ) (key : JSString) (result : RequestPhase) :
    (s.leave i key result).authenticationPromise
      = if (s.stores i).authenticationPromise = (s.shared key).authenticationPromise then none
        else (s.stores i).authenticationPromise := by
  unfold State.leave
  cases result <;> rfl

theorem leave_syncAuthOverride (i : ℕ) (key : JSString) (result : RequestPhase) :
    (s.leave i key result).syncAuthOverride = (s.stores i).syncAuthOverride := by
  unfold State.leave
  cases result <;> rfl

section

variable (hs : s.Good config keyOf)

include hs

/-- A request that joined an authentication has its token. -/
theorem Good.leave {key : JSString} (hq : s.requests r = some q) (hphase : q.phase = .joined p key)
    (hout : s.outcome p = some result) :
    ((s.setStore q.store (s.leave q.store key result)).setRequest r
      { q with phase := result }).Good config keyOf := by
  have hgood := hs.request r q hq
  unfold Request.Good at hgood
  rw [hphase] at hgood
  obtain ⟨hfor, hkey, hpromise⟩ := hgood
  have hname : key = (s.stores q.store).sharedKey (config q.store) := by
    obtain ⟨a, ha, rfl⟩ := hfor
    obtain ⟨b, hb, hsame⟩ := hs.promise _ p hpromise
    rw [← hsame, some.inj (ha.symm.trans hb)]
  have hend := hs.outcome (r := r) hfor hkey hout
  have hholds : q.phase.holds = true := by rw [hphase]; rfl
  have hnot : ¬q.phase.isStarted = true := by rw [hphase]; exact Bool.false_ne_true
  have hkept : ∀ p', (s.leave q.store key result).authenticationPromise = some p' →
      (s.stores q.store).authenticationPromise = some p' := by
    intro p' h
    rw [leave_authenticationPromise] at h
    split at h
    · exact nomatch h
    · exact h
  cases result with
  | authenticated token =>
    -- the store takes the token, then the request lets go of the promise
    have htoken : ∀ t, some ((s.shared key).accessToken.getD token) = some t →
        t.signer = keyOf ((s.stores q.store).sharedKey (config q.store)) := by
      rintro t ⟨⟩
      rw [← hname]
      rcases hcommon : (s.shared key).accessToken with _ | common
      · exact (hend : token.signer = q.signingKey).trans hkey.symm
      · exact hs.shared key common hcommon
    have hs₁ := hs.setToken q.store _ (s.shared key).tokenExpiry htoken
    exact hs₁.release (q := q) hq hholds rfl (s.leave q.store key (.authenticated token))
      ⟨by simp [leave_syncAuthOverride], by simp [State.leave]⟩
      (fun p h => by simpa using hkept p h)
      (by simp) rfl rfl (fun _ => rfl) (fun _ _ h => h) hend (fun h => absurd h hnot)
      fun h => absurd h hnot
  | _ =>
    exact hs.release (q := q) hq hholds (outcome_holds hout) (s.leave q.store key _) ⟨rfl, rfl⟩ hkept
      rfl rfl rfl (fun _ => rfl) (fun _ _ h => h) hend (fun h => absurd h hnot)
      fun h => absurd h hnot

/-- A request that started an authentication has its token. -/
theorem Good.finish {key : JSString} (hq : s.requests r = some q) (hphase : q.phase = .started key)
    (hout : s.outcome r = some result) :
    (((s.setShared key (s.clearPromise q.store key)).setStore q.store
      { s.stores q.store with authenticationPromise := none }).setRequest r
        { q with phase := result }).Good config keyOf := by
  have hgood := hs.request r q hq
  unfold Request.Good at hgood
  rw [hphase] at hgood
  obtain ⟨⟨a, ha, hstore, hname⟩, hkey, hpromise⟩ := hgood
  have hkept : ∀ key' p, (update s.shared key (s.clearPromise q.store key) key').authenticationPromise
      = some p → (s.shared key').authenticationPromise = some p ∧ p ≠ r := by
    intro key' p h
    rcases eq_or_ne key' key with rfl | hne
    · rw [update_self, clearPromise] at h
      split at h
      · exact nomatch h
      · rename_i hother
        refine ⟨h, ?_⟩
        rintro rfl
        exact hother (h.trans hpromise.symm)
    · rw [update_of_ne hne] at h
      refine ⟨h, ?_⟩
      rintro rfl
      obtain ⟨b, hb, hsame⟩ := hs.sharedPromise key' p h
      rw [← some.inj (ha.symm.trans hb), hname] at hsame
      exact hne hsame.symm
  exact hs.release (q := q) hq (by rw [hphase]; rfl) (outcome_holds hout)
    { s.stores q.store with authenticationPromise := none } ⟨rfl, rfl⟩ (fun _ h => nomatch h) rfl rfl rfl
    (fun key' => update_of_eq SharedAuthenticationState.accessToken (by rfl) key')
    (fun key' p h => (hkept key' p h).1) (hs.outcome ⟨a, ha, hname⟩ hkey hout)
    (fun _ h => nomatch h.symm.trans hout)
    fun _ => ⟨(fun h => nomatch h), fun key' h => (hkept key' r h).2 rfl⟩

/-- **A request that goes on** keeps what holds. -/
theorem Good.resume (hq : s.requests r = some q) :
    (s.resume r q).Good config keyOf := by
  have hgood := hs.request r q hq
  unfold Request.Good at hgood
  unfold State.resume
  cases hphase : q.phase with
  | awaiting p =>
    rw [hphase] at hgood
    obtain ⟨key, hfor, hkey⟩ := hgood
    rcases hout : s.outcome p with _ | result <;> simp only [hout, elim_none, elim_some]
    · exact hs
    · refine hs.setRequest (fun q' hq' => ?_) (outcome_holds hout) (hs.outcome hfor hkey hout)
      rw [← some.inj (hq.symm.trans hq'), hphase]
      rfl
  | joined p key =>
    rcases hout : s.outcome p with _ | result <;> simp only [hout, elim_none, elim_some]
    · exact hs
    · exact hs.leave hq hphase hout
  | started key =>
    rcases hout : s.outcome r with _ | result <;> simp only [elim_none, elim_some]
    · exact hs
    · exact hs.finish hq hphase hout
  | _ => exact hs

section

variable (ha : s.authentications p = some a)

include ha

/-- What an authentication that goes on has to its request. -/
theorem Good.runs (hopen : s.outcome p = none) :
    s.Runs p a := by
  have hgood := hs.authentication p a ha
  rw [State.outcome, ha, bind_some] at hopen
  unfold Authentication.Good at hgood
  cases hphase : a.phase with
  | requestingChallenge username pem =>
    rw [hphase] at hgood
    exact hgood
  | signing challenge key | authenticating challenge key =>
    rw [hphase] at hgood
    exact hgood.2
  | resolved token | rejected =>
    rw [hphase] at hopen
    exact nomatch hopen

/-- While its authentication goes on, a store keeps its name. -/
theorem Good.sharedKey_eq (hruns : s.Runs p a) :
    (s.stores a.store).sharedKey (config a.store) = a.sharedKey := by
  obtain ⟨q, hq, hstore, hphase⟩ := hruns
  have hgood := hs.request p q hq
  unfold Request.Good at hgood
  rw [hphase] at hgood
  obtain ⟨b, hb, hsame⟩ := hs.promise _ p hgood.2.2
  rw [← hstore, ← hsame, some.inj (ha.symm.trans hb)]

theorem Good.reject (hopen : s.outcome p = none) (hunshared : s.Unshared p) :
    (s.setAuthentication p { a with phase := .rejected }).Good config keyOf :=
  hs.setPhase ha .rejected trivial fun _ => ⟨hs.runs ha hopen, hunshared a ha⟩

theorem Good.receiveChallenge {challenge : Option JSString}
    (hunshared : challenge = none → s.Unshared p) :
    (s.receiveChallenge config p challenge a).Good config keyOf := by
  unfold State.receiveChallenge
  split
  swap
  · exact hs
  rename_i hphase
  have hopen : s.outcome p = none := by simp [State.outcome, ha, hphase]
  cases challenge with
  | none => exact hs.reject ha hopen (hunshared rfl)
  | some challenge =>
    have hruns := hs.runs ha hopen
    refine hs.setPhase ha _ ⟨?_, hruns⟩ fun h => nomatch h
    rw [hs.active, hs.sharedKey_eq ha hruns]

theorem Good.signed {succeeds : Bool} (hunshared : succeeds = false → s.Unshared p) :
    (s.signed p succeeds a).Good config keyOf := by
  unfold State.signed
  split
  swap
  · exact hs
  rename_i hphase
  have hopen : s.outcome p = none := by simp [State.outcome, ha, hphase]
  cases succeeds with
  | false => exact hs.reject ha hopen (hunshared rfl)
  | true =>
    have hgood := hs.authentication p a ha
    unfold Authentication.Good at hgood
    rw [hphase] at hgood
    exact hs.setPhase ha _ ⟨hgood.1, hgood.2⟩ fun h => nomatch h

/-- **A token arrives** at a store that still has the name it was asked for under. -/
theorem Good.receiveToken {expiry : Option TokenExpiry} (hunshared : expiry = none → s.Unshared p) :
    (s.receiveToken p expiry a).Good config keyOf := by
  unfold State.receiveToken
  split
  swap
  · exact hs
  rename_i key hphase
  have hopen : s.outcome p = none := by simp [State.outcome, ha, hphase]
  cases expiry with
  | none => exact hs.reject ha hopen (hunshared rfl)
  | some expiry =>
    have hgood := hs.authentication p a ha
    unfold Authentication.Good at hgood
    rw [hphase] at hgood
    have hname := hs.sharedKey_eq ha hgood.2
    have hs₁ := hs.setPhase ha (.resolved ⟨p, key, expiry⟩) hgood.1 fun h => nomatch h
    have hs₂ := hs₁.setToken a.store (some ⟨p, key, expiry⟩)
      (expiry.tokenExpiry a.started (s.stores a.store).tokenExpiry) fun t ht => by
        rw [← some.inj ht]
        exact hgood.1.trans (congrArg keyOf hname.symm)
    refine hs₂.setShared a.sharedKey _ (fun t ht => ?_) fun p' h => h
    rw [← some.inj ht]
    exact hgood.1

end

end

/-! ## Clearing -/

theorem Good.clearAuthCache (hs : s.Good config keyOf) (i : ℕ) :
    (s.clearAuthCache config i).Good config keyOf :=
  (hs.setToken i none 0 fun _ h => nomatch h).setShared _ _ (fun _ h => nomatch h) fun _ h => h

theorem Good.setSyncAuthOverride (hs : s.Good config keyOf) {i : ℕ}
    (hconfig : (config i).signingKey
      = keyOf (buildSharedAuthenticationKey (config i) (config i).username))
    (hswitch : s.Switches config keyOf i override) :
    (s.setSyncAuthOverride config i override).Good config keyOf := by
  have hswitched := hs.switch hconfig hswitch
  set key := ({ s.stores i with syncAuthOverride := override } : StoreState).sharedKey (config i)
    with hkey
  have hcleared := hswitched.setShared key { s.shared key with accessToken := none, tokenExpiry := 0 }
    (fun _ h => nomatch h) fun _ h => h
  have hboth := hcleared.setShared ((s.stores i).sharedKey (config i)) {} (fun _ h => nomatch h)
    (fun _ h => nomatch h)
  have hstate : s.setSyncAuthOverride config i override = ((s.setStore i { s.stores i with
      syncAuthOverride := override, accessToken := none, tokenExpiry := 0 }).setShared key
        { s.shared key with accessToken := none, tokenExpiry := 0 }).setShared
          ((s.stores i).sharedKey (config i)) {} := by
    simp only [State.setSyncAuthOverride, State.clearAuthCache, State.clearSharedAuthenticationState,
      State.setStore, update_self, Function.update_idem, hkey]
  exact hstate ▸ hboth

/-! ## Runs -/

theorem good_start (hconfig : ∀ i, (config i).signingKey
      = keyOf (buildSharedAuthenticationKey (config i) (config i).username)) (now : ℤ) :
    ({ now } : State).Good config keyOf where
  active := hconfig
  own _ _ h := nomatch h
  shared _ _ h := nomatch h
  promise _ _ h := nomatch h
  sharedPromise _ _ h := nomatch h
  named _ _ h := nomatch h
  authentication _ _ h := nomatch h
  request _ _ h := nomatch h
  alone _ _ _ _ h := nomatch h
  heard _ _ h := nomatch h

/-- **One step** that keeps the identities apart keeps what holds. -/
theorem Good.step (hconfig : ∀ i, (config i).signingKey
      = keyOf (buildSharedAuthenticationKey (config i) (config i).username))
    (hs : s.Good config keyOf) {event : Event} (hkeeps : KeepsApart config keyOf s event) :
    (ClientAuth.step config s event).Good config keyOf := by
  cases event with
  | wait ms => exact { hs with }
  | ensureAuthenticated i r =>
    rw [ClientAuth.step]
    split
    · exact hs
    · rename_i hnew
      exact hs.ensureAuthenticated hkeeps (not_isSome_iff_eq_none.mp hnew)
  | refreshAuthentication i r =>
    rw [ClientAuth.step]
    split
    · exact hs
    · rename_i hnew
      exact (hs.clearAuthCache i).ensureAuthenticated hkeeps (not_isSome_iff_eq_none.mp hnew)
  | clearAuthCache i => exact hs.clearAuthCache i
  | setSyncAuthOverride i override => exact hs.setSyncAuthOverride (hconfig i) hkeeps
  | clearSyncAuthOverride i =>
    rw [ClientAuth.step, State.clearSyncAuthOverride]
    split
    · exact hs.setSyncAuthOverride (hconfig i) hkeeps
    · exact hs
  | receiveChallenge p challenge =>
    rw [ClientAuth.step]
    rcases ha : s.authentications p with _ | a
    · exact hs
    · exact hs.receiveChallenge ha fun h => by subst h; exact hkeeps
  | sign p succeeds =>
    rw [ClientAuth.step]
    rcases ha : s.authentications p with _ | a
    · exact hs
    · exact hs.signed ha fun h => by subst h; exact hkeeps
  | receiveToken p expiry =>
    rw [ClientAuth.step]
    rcases ha : s.authentications p with _ | a
    · exact hs
    · exact hs.receiveToken ha fun h => by subst h; exact hkeeps
  | resume r =>
    rw [ClientAuth.step]
    rcases hq : s.requests r with _ | q
    · exact hs
    · exact hs.resume hq

end State

end ClientAuth

end MindooDB
