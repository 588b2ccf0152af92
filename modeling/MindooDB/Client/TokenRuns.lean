import MindooDB.Client.TokenInvariant

/-!
# Client/TokenRuns — whose token a request carries

In a run that keeps the identities apart, every request carries a token of the key that its store
signed with when it asked, and no request waits for an authentication that has failed
(`keepsApart_run`).

`crossed_overrideMeanwhile` is a run where tokens cross.
-/

namespace MindooDB

open Option Run

namespace ClientAuth

/-- Every request has a token of the key that its store signed with when it asked. -/
def State.TokensStayApart (s : State) : Prop :=
  ∀ r q token, s.requests r = some q → q.phase = .authenticated token → token.signer = q.signingKey

/-- A request that has just begun has a cached token, or waits for an authentication that has not
failed. -/
def State.AsksAfresh (s : State) (store request : ℕ) (signingKey : JSString) : Prop :=
  ∃ phase, s.requests request = some ⟨store, signingKey, phase⟩
    ∧ ((∃ token, phase = .authenticated token)
      ∨ ∃ p, (⟨store, signingKey, phase⟩ : Request).waitsFor request = some p ∧ ¬s.rejected p)

/-- The store and the request of an event that asks for a token. -/
def Event.asks : Event → Option (ℕ × ℕ)
  | .ensureAuthenticated store request | .refreshAuthentication store request => some (store, request)
  | _ => none

namespace State

variable {config : ℕ → StoreConfig} {keyOf : JSString → JSString} {s : State}

theorem Good.asksAfresh (hs : s.Good config keyOf) (hheard : s.Heard) (i r : ℕ) :
    (s.ensureAuthenticated config i r).AsksAfresh i r ((s.stores i).activeSigningKey (config i)) := by
  have hfresh := fun {p} => hs.not_rejected (i := i) (p := p) hheard
  unfold State.ensureAuthenticated
  simp only
  split
  · exact ⟨_, Function.update_self _ _ _, .inl ⟨_, rfl⟩⟩
  · exact ⟨_, Function.update_self _ _ _, .inl ⟨_, rfl⟩⟩
  · rename_i hpromise
    exact ⟨_, Function.update_self _ _ _, .inr ⟨_, rfl, hfresh (.inl hpromise)⟩⟩
  · rename_i hshared
    exact ⟨_, Function.update_self _ _ _, .inr ⟨_, rfl, hfresh (.inr hshared)⟩⟩
  · refine ⟨_, Function.update_self _ _ _, .inr ⟨_, rfl, ?_⟩⟩
    rintro ⟨a, ha, hphase⟩
    obtain rfl := some.inj ((Function.update_self r _ _).symm.trans ha)
    exact nomatch hphase

theorem Good.asksAfresh_step (hs : s.Good config keyOf) {event : Event}
    (hkeeps : KeepsApart config keyOf s event) {i r : ℕ} (hasks : event.asks = some (i, r))
    (hnew : s.requests r = none) :
    (ClientAuth.step config s event).AsksAfresh i r ((s.stores i).activeSigningKey (config i)) := by
  cases event with
  | ensureAuthenticated i' r' =>
    obtain ⟨rfl, rfl⟩ := Prod.mk.inj (some.inj hasks)
    rw [ClientAuth.step, hnew, isSome_none, if_neg Bool.false_ne_true]
    exact hs.asksAfresh hkeeps i' r'
  | refreshAuthentication i' r' =>
    obtain ⟨rfl, rfl⟩ := Prod.mk.inj (some.inj hasks)
    rw [ClientAuth.step, hnew, isSome_none, if_neg Bool.false_ne_true]
    have hkey : ((s.clearAuthCache config i').stores i').activeSigningKey (config i')
        = (s.stores i').activeSigningKey (config i') :=
      update_of_eq (StoreState.activeSigningKey (config i')) (by rfl) i'
    exact hkey ▸ (hs.clearAuthCache i').asksAfresh hkeeps i' r'
  | _ => cases hasks

end State

section Runs

variable {config : ℕ → StoreConfig} {keyOf : JSString → JSString}

theorem good_run (hconfig : ∀ i, (config i).signingKey
      = keyOf (buildSharedAuthenticationKey (config i) (config i).username)) {now : ℤ}
    {events : List Event} (hkeeps : AllSteps (step config) (KeepsApart config keyOf) { now } events) :
    (run (step config) { now } events).Good config keyOf :=
  Run.induction (State.good_start hconfig now) (fun _ _ hs h => hs.step hconfig h) hkeeps

/-- **In a run that keeps the identities apart** tokens stay apart, and a request that begins waits for
no authentication that has failed. -/
theorem keepsApart_run (hconfig : ∀ i, (config i).signingKey
      = keyOf (buildSharedAuthenticationKey (config i) (config i).username)) {now : ℤ}
    {events : List Event} (hkeeps : AllSteps (step config) (KeepsApart config keyOf) { now } events) :
    (run (step config) { now } events).TokensStayApart
      ∧ ∀ before event i r, before ++ [event] <+: events → event.asks = some (i, r) →
        (run (step config) { now } before).requests r = none →
          (run (step config) { now } (before ++ [event])).AsksAfresh i r
            (((run (step config) { now } before).stores i).activeSigningKey (config i)) := by
  constructor
  · intro r q token hq hphase
    have hgood := (good_run hconfig hkeeps).request r q hq
    unfold Request.Good at hgood
    rw [hphase] at hgood
    exact hgood
  · rintro before event i r ⟨after, rfl⟩ hasks hnew
    rw [List.append_assoc] at hkeeps
    obtain ⟨hbefore, hevent, -⟩ := allSteps_append.mp hkeeps
    rw [run_append]
    exact (good_run hconfig hbefore).asksAfresh_step hevent hasks hnew

end Runs

/-! ## A store that changes its name, and one that joins -/

def aliceStore : ℕ → StoreConfig := fun _ => { username := "alice", signingKey := "alice's key" }

def adminOverride : SyncAuthOverride := { username := "admin", signingKey := "admin's key" }

def sampleKeyOf (sharedKey : JSString) : JSString :=
  if sharedKey = "unknown::alice" then "alice's key" else "admin's key"

/-- What a request hears until it has its token. -/
def hearing (request : ℕ) : List Event :=
  [.receiveChallenge request (some "challenge"), .sign request true,
    .receiveToken request (some (.jwt 3600)), .resume request]

theorem signingKey_aliceStore (i : ℕ) : (aliceStore i).signingKey
    = sampleKeyOf (buildSharedAuthenticationKey (aliceStore i) (aliceStore i).username) :=
  (by decide +kernel : (aliceStore 0).signingKey
    = sampleKeyOf (buildSharedAuthenticationKey (aliceStore 0) (aliceStore 0).username))

/-- A store that changes its name once it has its token. -/
theorem keepsApart_run_overrideAfterwards :
    (run (step aliceStore) {} (.ensureAuthenticated 0 0 :: hearing 0
      ++ [.setSyncAuthOverride 0 (some adminOverride)])).TokensStayApart := by
  have hsigns : adminOverride.signingKey
      = sampleKeyOf (buildSharedAuthenticationKey (aliceStore 0) adminOverride.username) := by
    decide +kernel
  have hkeeps : AllSteps (step aliceStore) (KeepsApart aliceStore sampleKeyOf) {}
      (.ensureAuthenticated 0 0 :: hearing 0 ++ [.setSyncAuthOverride 0 (some adminOverride)]) :=
    ⟨(fun _ _ ⟨_, h, _⟩ => nomatch h), trivial, trivial, trivial, trivial,
      ⟨fun _ h => some.inj h ▸ hsigns, Or.inr (by decide +kernel)⟩, trivial⟩
  exact (keepsApart_run signingKey_aliceStore hkeeps).1

/-- **A name that changes while a challenge is on its way**: the challenge is signed with the new key,
and the request that asked under the old one carries the token. -/
theorem crossed_overrideMeanwhile :
    ¬(run (step aliceStore) {}
      (.ensureAuthenticated 0 0 :: .setSyncAuthOverride 0 (some adminOverride)
        :: hearing 0)).TokensStayApart := by
  intro happart
  have hrequest : (run (step aliceStore) {} (.ensureAuthenticated 0 0
      :: .setSyncAuthOverride 0 (some adminOverride) :: hearing 0)).requests 0
      = some ⟨0, "alice's key", .authenticated ⟨0, "admin's key", .jwt 3600⟩⟩ := by decide +kernel
  have hsame := happart 0 _ _ hrequest rfl
  exact absurd hsame (by decide +kernel)

end ClientAuth

end MindooDB
