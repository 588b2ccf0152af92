import MindooDB.Lib.Run
import MindooDB.Server.Authentication

/-!
# Server/AuthenticationRuns — what every run of the sign-in keeps to

A challenge is marked as used by the call that takes it, in the step in which that call looks at the
mark, so no two calls work on one challenge and no challenge has two tokens.  A token is for a key
that the user had at some moment of the call, unless the user had no keys and the call fell back to
the key that the client had named (`KeepsIdentity` says when that is harmless).  A token is accepted
only when its key was active at some moment of the call that checks it.

The moments of a call are the states of the run in which it waits for the directory (`Moment`).
-/

namespace MindooDB

open AuthState LinkedMap List Option Run

variable (config : AuthConfig) (verifySignature : JSString → List UInt8 → JSString → Bool)

/-- **Where a call falls back to the key of its challenge**, a signature by that key is one by a key
that the directory still knows. -/
def KeepsIdentity (s : AuthState) : AuthEvent → Prop
  | .next call _ _ => ∀ phase ∈ s.calls call, ∀ attempt key,
      attempt.challenge.signingPublicKey = some key →
      verifySignature attempt.challenge.challenge attempt.signature key = true →
        (∀ username, phase = .verifyingPrimary attempt username →
          s.directory.getUserPublicKeys username = none → s.directory.InUniverse username key)
        ∧ (phase = .resolving attempt key → orUndefined (s.directory.getUserBySigningPublicKey key) = none →
          (s.directory.getUserBySigningPublicKey key).isSome = true)
  | _ => True

/-- Whether a call waits for the directory. -/
def AuthPhase.running : AuthPhase → Bool
  | .challenged _ | .authenticated _ | .validated _ | .threw _ => false
  | _ => true

/-- At some moment of a call the directory had a property. -/
def Moment (start : AuthState) (events : List AuthEvent) (call : ℕ) (P : AuthDirectory → Prop) :
    Prop :=
  Visits (authStep config verifySignature) start
    (fun s => (s.calls call).any AuthPhase.running = true ∧ P s.directory) events

/-- The challenge that a call works on. -/
def AuthPhase.attempt? : AuthPhase → Option Attempt
  | .resolving attempt _ | .candidates attempt _ | .candidatePrimary attempt _
  | .verifying attempt _ | .verifyingPrimary attempt _ | .flagging attempt _ _ => some attempt
  | _ => none

/-! ## What is known of a call -/

section Known

variable (seen : ℕ → (AuthDirectory → Prop) → Prop)

/-- Whom a challenge was issued for: its user, or whoever had its key at some moment of the call. -/
def Attempt.Names (call : ℕ) (attempt : Attempt) (username : JSString) : Prop :=
  attempt.challenge.username = some username
    ∨ attempt.challenge.username = none ∧ ∃ named, attempt.challenge.signingPublicKey = some named
      ∧ seen call fun directory => directory.getUserBySigningPublicKey named = some username

/-- **A token is as it should be**: the caller signed the challenge with the key that the token
records, and that was a key of whom the challenge was issued for. -/
structure Issue.Legitimate (issue : Issue) : Prop where
  signed : verifySignature issue.attempt.challenge.challenge issue.attempt.signature issue.matchedKey
    = true
  recorded : issue.payload.deviceSigningKey = some issue.matchedKey
  holder : match issue.username with
    | some username => issue.attempt.Names seen issue.call username
        ∧ seen issue.call fun directory => directory.InUniverse username issue.matchedKey
    | none => issue.attempt.challenge.username = none
        ∧ issue.attempt.challenge.signingPublicKey = some issue.matchedKey
        ∧ seen issue.call fun directory =>
          (directory.getUserBySigningPublicKey issue.matchedKey).isSome = true

/-- The key that a token records was active at some moment of a call. -/
def WasActive (call : ℕ) (payload : NetworkAuthTokenPayload) : Prop :=
  ∃ key username, payload.deviceSigningKey = some key
    ∧ seen call fun directory => directory.IsActive username key

/-- What a call has found out. -/
def AuthPhase.Knows (issued : List Issue) (call : ℕ) : AuthPhase → Prop
  | .resolving attempt named =>
    attempt.challenge.username = none ∧ attempt.challenge.signingPublicKey = some named
  | .candidates attempt username | .candidatePrimary attempt username | .verifying attempt username
  | .verifyingPrimary attempt username => attempt.Names seen call username
  | .flagging attempt username key => attempt.Names seen call username
      ∧ verifySignature attempt.challenge.challenge attempt.signature key = true
      ∧ seen call fun directory => directory.InUniverse username key
  | .tokenUser payload key | .tokenUniverse payload key _ =>
    (∃ issue ∈ issued, issue.payload = payload) ∧ payload.deviceSigningKey = some key
  | .tokenRevoked payload username keyInactive => (∃ issue ∈ issued, issue.payload = payload)
      ∧ ∃ key, payload.deviceSigningKey = some key
        ∧ (keyInactive = false → seen call fun directory => directory.IsActive username key)
  | .validated (some payload) => (∃ issue ∈ issued, issue.payload = payload)
      ∧ (payload.wipe = false → WasActive seen call payload)
  | _ => True

namespace AuthState

/-- A challenge was generated, and is marked if it is still there. -/
def Spent (s : AuthState) (id : JSString) : Prop :=
  id ∈ s.generated ∧ ∀ challenge, s.challenges.get? id = some challenge → challenge.used = true

/-- The challenges that have a token. -/
def redeemed (s : AuthState) : List JSString := s.issued.map fun issue => issue.attempt.challenge.challenge

/-- A call works on a challenge. -/
def WorksOn (s : AuthState) (call : ℕ) (id : JSString) : Prop :=
  ∃ phase attempt, s.calls call = some phase ∧ phase.attempt? = some attempt
    ∧ attempt.challenge.challenge = id

/-- **What holds between two steps.** -/
structure Good (s : AuthState) : Prop where
  knows : ∀ call phase, s.calls call = some phase →
    phase.Knows verifySignature seen s.issued call
  legitimate : ∀ issue ∈ s.issued, issue.Legitimate verifySignature seen
  stored : ∀ id challenge, s.challenges.get? id = some challenge →
    challenge.challenge = id ∧ id ∈ s.generated
  spent : ∀ call id, s.WorksOn call id → s.Spent id ∧ id ∉ s.redeemed
  apart : ∀ call call' id, s.WorksOn call id → s.WorksOn call' id → call = call'
  redeemed_spent : ∀ id ∈ s.redeemed, s.Spent id
  nodup : s.redeemed.Nodup

end AuthState

end Known

/-! ## Steps -/

namespace AuthState

variable {config} {verifySignature} {seen : ℕ → (AuthDirectory → Prop) → Prop} {s : AuthState}

variable {call : ℕ} {phase : AuthPhase} {challenge : AuthChallenge}
  {challenges : LinkedMap JSString AuthChallenge} {attempt : Attempt}

theorem WorksOn.of_move {call' : ℕ} {id : JSString}
    (hattempt : ∀ attempt, phase.attempt? = some attempt →
      s.WorksOn call attempt.challenge.challenge) (h : (s.move call phase).WorksOn call' id) :
    s.WorksOn call' id := by
  obtain ⟨phase', attempt, hphase', hattempt', rfl⟩ := h
  rcases eq_or_ne call' call with rfl | hne
  · rw [calls_move_self] at hphase'
    obtain rfl := some.inj hphase'
    exact hattempt attempt hattempt'
  · rw [calls_move_of_ne s hne] at hphase'
    exact ⟨phase', attempt, hphase', hattempt', rfl⟩

/-- **A call that moves on** keeps its challenge, or lets go of it. -/
theorem Good.move (hs : s.Good verifySignature seen)
    (hknows : phase.Knows verifySignature seen s.issued call)
    (hattempt : ∀ attempt, phase.attempt? = some attempt →
      s.WorksOn call attempt.challenge.challenge) :
    (s.move call phase).Good verifySignature seen where
  knows call' phase' h := by
    rcases eq_or_ne call' call with rfl | hne
    · rw [calls_move_self] at h
      exact some.inj h ▸ hknows
    · rw [calls_move_of_ne s hne] at h
      exact hs.knows call' phase' h
  legitimate := hs.legitimate
  stored := hs.stored
  spent call' id h := hs.spent call' id (h.of_move hattempt)
  apart call₁ call₂ id h₁ h₂ := hs.apart call₁ call₂ id (h₁.of_move hattempt) (h₂.of_move hattempt)
  redeemed_spent := hs.redeemed_spent
  nodup := hs.nodup

/-- A call that is done with its challenge. -/
theorem Good.finish (hs : s.Good verifySignature seen)
    (hknows : phase.Knows verifySignature seen s.issued call) (hattempt : phase.attempt? = none) :
    (s.move call phase).Good verifySignature seen :=
  hs.move hknows fun attempt h => by rw [hattempt] at h; exact nomatch h

theorem get?_cleanupExpiredChallenges {id : JSString}
    (h : (s.cleanupExpiredChallenges challenges).get? id = some challenge) :
    challenges.get? id = some challenge := by
  have hfold : ∀ (entries : List (JSString × AuthChallenge)) (m : LinkedMap JSString AuthChallenge),
      (entries.foldl (fun challenges entry =>
        if entry.2.expiresAt < s.now then challenges.delete entry.1 else challenges) m).get? id
        = some challenge → m.get? id = some challenge := by
    intro entries
    induction entries with
    | nil => exact fun m h => h
    | cons entry entries ih =>
      intro m h
      have hnext := ih _ h
      simp only at hnext
      split at hnext
      · rw [get?_delete] at hnext
        split at hnext
        · cases hnext
        · exact hnext
      · exact hnext
  exact hfold _ _ h

theorem get?_foldl_delete {ids : List JSString} {m : LinkedMap JSString AuthChallenge} {id : JSString}
    (h : (ids.foldl delete m).get? id = some challenge) :
    m.get? id = some challenge := by
  induction ids generalizing m with
  | nil => exact h
  | cons id' ids ih =>
    have hnext := ih h
    rw [get?_delete] at hnext
    split at hnext
    · cases hnext
    · exact hnext

theorem get?_evictChallengesOverCap {id : JSString}
    (h : (evictChallengesOverCap challenges).get? id = some challenge) :
    challenges.get? id = some challenge := by
  rw [evictChallengesOverCap] at h
  exact get?_foldl_delete h

/-- **A new challenge** is nobody's yet. -/
theorem Good.remember (hs : s.Good verifySignature seen) {uuid : JSString}
    (hfresh : uuid ∉ s.generated) (hget : ∀ id challenge, challenges.get? id = some challenge →
      id = uuid ∧ challenge.challenge = uuid ∨ s.challenges.get? id = some challenge) :
    { s.move call (.challenged uuid) with
      generated := uuid :: s.generated
      challenges }.Good verifySignature seen := by
  have hmoved : (s.move call (.challenged uuid)).Good verifySignature seen := hs.finish trivial rfl
  have hspent : ∀ id, s.Spent id → id ∈ uuid :: s.generated ∧ ∀ challenge,
      challenges.get? id = some challenge → challenge.used = true := by
    intro id h
    refine ⟨mem_cons_of_mem _ h.1, fun challenge hchallenge => ?_⟩
    rcases hget id challenge hchallenge with ⟨rfl, -⟩ | hold
    · exact absurd h.1 hfresh
    · exact h.2 challenge hold
  exact
    { knows := hmoved.knows
      legitimate := hs.legitimate
      stored := fun id challenge h => by
        rcases hget id challenge h with ⟨rfl, heq⟩ | hold
        · exact ⟨heq, mem_cons_self⟩
        · exact (hs.stored id challenge hold).imp_right (mem_cons_of_mem _)
      spent := fun call' id h => (hmoved.spent call' id h).imp_left (hspent id)
      apart := hmoved.apart
      redeemed_spent := fun id h => hspent id (hs.redeemed_spent id h)
      nodup := hs.nodup }

theorem Good.storeChallenge (hs : s.Good verifySignature seen) (call : ℕ) (uuid : JSString)
    (username signingPublicKey : Option JSString) :
    (s.storeChallenge config call uuid username signingPublicKey).Good verifySignature seen := by
  rw [AuthState.storeChallenge]
  split
  · exact hs
  · rename_i hfresh
    refine hs.remember hfresh fun id challenge h => ?_
    have hset := get?_cleanupExpiredChallenges (get?_evictChallengesOverCap h)
    rw [get?_set] at hset
    split at hset
    · rename_i heq
      exact .inl ⟨heq, some.inj hset ▸ rfl⟩
    · exact .inr hset

theorem AuthPhase.Knows.cons {issued : List Issue}
    (h : phase.Knows verifySignature seen issued call) (issue : Issue) :
    phase.Knows verifySignature seen (issue :: issued) call := by
  have hmem : ∀ {payload}, (∃ issue ∈ issued, issue.payload = payload) →
      ∃ issue' ∈ issue :: issued, issue'.payload = payload :=
    fun ⟨old, hold, heq⟩ => ⟨old, mem_cons_of_mem _ hold, heq⟩
  cases phase with
  | tokenUser payload key => exact h.imp_left hmem
  | tokenUniverse payload key username => exact h.imp_left hmem
  | tokenRevoked payload username keyInactive => exact h.imp_left hmem
  | validated payload =>
    cases payload with
    | none => trivial
    | some payload => exact h.imp_left hmem
  | _ => exact h

/-- **A token** is the only one of its challenge. -/
theorem Good.generateToken (hs : s.Good verifySignature seen)
    {username : Option JSString} {key : JSString} {wipe : Bool}
    (hworks : s.WorksOn call attempt.challenge.challenge)
    (hlegitimate : ∀ payload : NetworkAuthTokenPayload, payload.deviceSigningKey = orUndefined (some key) →
      Issue.Legitimate verifySignature seen ⟨call, attempt, username, key, payload⟩) :
    (s.generateToken config call attempt username key wipe).Good verifySignature seen := by
  rw [AuthState.generateToken]
  have hkey : (s.tokenPayload config attempt key wipe).deviceSigningKey = orUndefined (some key) := rfl
  generalize s.tokenPayload config attempt key wipe = payload at hkey ⊢
  split
  swap
  · exact hs.finish trivial rfl
  have hmoved : (s.move call (.authenticated ⟨some payload, none⟩)).Good verifySignature seen :=
    hs.finish trivial rfl
  have hother : ∀ call' id, (s.move call (.authenticated ⟨some payload, none⟩)).WorksOn call' id →
      id ≠ attempt.challenge.challenge := by
    rintro call' id ⟨phase, attempt', hphase, hattempt', rfl⟩ heq
    rcases eq_or_ne call' call with rfl | hne
    · rw [calls_move_self] at hphase
      obtain rfl := some.inj hphase
      exact nomatch hattempt'
    · rw [calls_move_of_ne s hne] at hphase
      exact hne (hs.apart call' call _ ⟨phase, attempt', hphase, hattempt', heq⟩ hworks)
  exact
    { knows := fun call' phase h => AuthPhase.Knows.cons (hmoved.knows call' phase h) _
      legitimate := forall_mem_cons.mpr ⟨hlegitimate payload hkey, hs.legitimate⟩
      stored := hs.stored
      spent := fun call' id h => ⟨(hmoved.spent call' id h).1, by
        rw [redeemed, map_cons, mem_cons, not_or]
        exact ⟨hother call' id h, (hmoved.spent call' id h).2⟩⟩
      apart := hmoved.apart
      redeemed_spent := forall_mem_cons.mpr ⟨(hs.spent call _ hworks).1, hs.redeemed_spent⟩
      nodup := nodup_cons.mpr ⟨(hs.spent call _ hworks).2, hs.nodup⟩ }

variable {username : JSString}

section Answers

variable (hkey : ∀ message signature, verifySignature message signature "" = false)

/-- What the directory is now, it was at some moment of each call that waits for it. -/
def SeesNow (seen : ℕ → (AuthDirectory → Prop) → Prop) (s : AuthState) : Prop :=
  ∀ call P, (s.calls call).any AuthPhase.running = true → P s.directory → seen call P

theorem orUndefined_of_verify (hkey : ∀ message signature, verifySignature message signature "" = false)
    {message key : JSString} {signature : List UInt8}
    (h : verifySignature message signature key = true) : orUndefined (some key) = some key := by
  rw [orUndefined, filter_some, if_pos]
  rcases key with ⟨_ | ⟨unit, units⟩⟩
  · have hempty := hkey message signature
    rw [show ((⟨[]⟩ : JSString)) = ("" : JSString) from rfl] at h
    rw [h] at hempty
    exact nomatch hempty
  · rfl

theorem matchKey_spec {attempt : Attempt} {pems : List JSString} {key : JSString}
    (h : matchKey verifySignature attempt pems = some key) :
    key ∈ pems ∧ verifySignature attempt.challenge.challenge attempt.signature key = true :=
  ⟨mem_of_find?_eq_some h, find?_some h⟩

/-- A key is tried only if it is one of the user's. -/
theorem Good.tryKeys (hs : s.Good verifySignature seen) {pems : List JSString}
    (hworks : s.WorksOn call attempt.challenge.challenge)
    (hnames : attempt.Names seen call username)
    (hpems : ∀ key ∈ pems, verifySignature attempt.challenge.challenge attempt.signature key = true →
      seen call fun directory => directory.InUniverse username key) :
    (s.tryKeys verifySignature call attempt username pems).Good verifySignature seen := by
  rw [AuthState.tryKeys]
  rcases hmatch : matchKey verifySignature attempt pems with _ | key
  · exact hs.finish trivial rfl
  · obtain ⟨hmem, hverify⟩ := matchKey_spec hmatch
    exact hs.move ⟨hnames, hverify, hpems key hmem hverify⟩ fun _ h => some.inj h ▸ hworks

theorem Good.checkCandidates (hs : s.Good verifySignature seen) (candidateKeys : List JSString)
    (hworks : s.WorksOn call attempt.challenge.challenge)
    (hnames : attempt.Names seen call username) :
    (s.checkCandidates call attempt username candidateKeys).Good verifySignature seen := by
  rw [AuthState.checkCandidates]
  generalize (if candidateKeys.isEmpty then _ else candidateKeys) = keys
  split
  · exact hs.finish trivial rfl
  · split
    · exact hs.finish trivial rfl
    · exact hs.move hnames fun _ h => some.inj h ▸ hworks

/-- A challenge that resolves to no user is matched with its own key. -/
theorem Good.authenticateByKey
    (hkey : ∀ message signature, verifySignature message signature "" = false)
    (hs : s.Good verifySignature seen) (hworks : s.WorksOn call attempt.challenge.challenge)
    (husername : attempt.challenge.username = none)
    (hknown : ∀ key, attempt.challenge.signingPublicKey = some key →
      verifySignature attempt.challenge.challenge attempt.signature key = true →
      seen call fun directory => (directory.getUserBySigningPublicKey key).isSome = true) :
    (s.authenticateByKey config verifySignature call attempt).Good verifySignature seen := by
  rw [AuthState.authenticateByKey]
  split
  · exact hs.finish trivial rfl
  · rcases hmatch : matchKey verifySignature attempt attempt.fallbackPems with _ | key
    · exact hs.finish trivial rfl
    · obtain ⟨hmem, hverify⟩ := matchKey_spec hmatch
      have hnamed : attempt.challenge.signingPublicKey = some key := mem_toList.mp hmem
      exact hs.generateToken hworks fun payload hpayload =>
        ⟨hverify, hpayload.trans (orUndefined_of_verify hkey hverify), husername, hnamed,
          hknown key hnamed hverify⟩

end Answers

theorem mem_getSigningKeyUniverse {fails : Bool} {username key : JSString}
    (h : key ∈ (s.getSigningKeyUniverse fails username).all) :
    s.directory.InUniverse username key := by
  rw [getSigningKeyUniverse] at h
  split at h
  · exact nomatch h
  · exact mem_append.mp h

/-- **A step of a call** keeps what holds, if it keeps the identity. -/
theorem Good.next (hkey : ∀ message signature, verifySignature message signature "" = false)
    (hs : s.Good verifySignature seen) (hsees : SeesNow seen s)
    (hphase : s.calls call = some phase) {fails : Bool} {uuid : JSString}
    (hidentity : KeepsIdentity verifySignature s (.next call fails uuid)) :
    (s.next config verifySignature call fails uuid phase).Good verifySignature seen := by
  have hknows := hs.knows call phase hphase
  have hseen : phase.running = true → ∀ P, P s.directory → seen call P :=
    fun hrunning P => hsees call P (by rw [hphase]; exact hrunning)
  have hworks : ∀ attempt, phase.attempt? = some attempt →
      s.WorksOn call attempt.challenge.challenge := fun attempt h => ⟨phase, attempt, hphase, h, rfl⟩
  cases phase with
  | userKeys username signingPublicKey =>
    rcases hkeys : s.directory.getUserPublicKeys username with _ | primary <;>
      cases fails <;> simp only [next, hkeys, Bool.false_eq_true, if_false, if_true]
    · exact hs.finish trivial rfl
    · exact hs.finish trivial rfl
    · cases signingPublicKey with
      | none => exact hs.storeChallenge call uuid _ _
      | some named => exact hs.finish trivial rfl
    · exact hs.finish trivial rfl
  | wipeUniverse username signingPublicKey =>
    rw [next]
    split
    · exact hs.storeChallenge call uuid _ _
    · exact hs.finish trivial rfl
  | userRevoked username =>
    rw [next]
    split_ifs <;> exact hs.finish trivial rfl
  | knownKeys username named | knownPrimary username named =>
    rw [next]
    split_ifs
    · exact hs.finish trivial rfl
    · exact hs.storeChallenge call uuid _ _
    · exact hs.finish trivial rfl
  | userByKey named =>
    rw [next]
    split
    · exact hs.finish trivial rfl
    · split
      · exact hs.storeChallenge call uuid _ _
      · exact hs.finish trivial rfl
  | challenged challenge => exact hs.finish trivial rfl
  | resolving attempt named =>
    rw [next]
    split
    · exact hs.finish trivial rfl
    · split
      · rename_i username hlookup
        refine hs.move (.inr ⟨hknows.1, named, hknows.2, hseen rfl _ ?_⟩)
          fun _ h => some.inj h ▸ hworks attempt rfl
        exact (filter_eq_some_iff.mp hlookup).1
      · rename_i hlookup
        refine hs.authenticateByKey hkey (hworks attempt rfl) hknows.1 fun key hnamed hverify => ?_
        obtain rfl : named = key := some.inj (hknows.2.symm.trans hnamed)
        exact hseen rfl _ ((hidentity _ hphase attempt named hnamed hverify).2 rfl hlookup)
  | candidates attempt username =>
    rw [next]
    split
    · exact hs.move hknows fun _ h => some.inj h ▸ hworks attempt rfl
    · exact hs.checkCandidates _ (hworks attempt rfl) hknows
  | candidatePrimary attempt username =>
    rw [next]
    split
    · exact hs.finish trivial rfl
    · exact hs.checkCandidates _ (hworks attempt rfl) hknows
  | verifying attempt username =>
    rw [next]
    split
    · exact hs.move hknows fun _ h => some.inj h ▸ hworks attempt rfl
    · exact hs.tryKeys (hworks attempt rfl) hknows
        fun key hmem _ => hseen rfl _ (mem_getSigningKeyUniverse hmem)
  | verifyingPrimary attempt username =>
    rw [next]
    split
    · exact hs.finish trivial rfl
    · split
      · rename_i primary hprimary
        refine hs.tryKeys (hworks attempt rfl) hknows fun key hmem _ => hseen rfl _ (.inl ?_)
        rw [mem_singleton.mp hmem]
        exact s.directory.primary_active username primary hprimary
      · rename_i hprimary
        refine hs.tryKeys (hworks attempt rfl) hknows fun key hmem hverify => hseen rfl _ ?_
        exact (hidentity _ hphase attempt key (mem_toList.mp hmem) hverify).1 username rfl hprimary
  | flagging attempt username key =>
    rw [next]
    exact hs.generateToken (hworks attempt rfl) fun payload hpayload =>
      ⟨hknows.2.1, hpayload.trans (orUndefined_of_verify hkey hknows.2.1), hknows.1, hknows.2.2⟩
  | authenticated result => exact hs.finish trivial rfl
  | tokenUser payload key =>
    rw [next]
    split
    · exact hs.finish trivial rfl
    · exact hs.finish hknows rfl
  | tokenUniverse payload key username =>
    rw [next]
    split
    · exact hs.finish trivial rfl
    · refine hs.finish ⟨hknows.1, key, hknows.2, fun hactive => hseen rfl _ ?_⟩ rfl
      exact AuthDirectory.isActive_iff.mpr (by simpa using hactive)
  | tokenRevoked payload username keyInactive =>
    rw [next]
    split
    · exact hs.finish trivial rfl
    · rename_i hvalid
      obtain ⟨hissued, key, hkey', hactive⟩ := hknows
      refine hs.finish ⟨hissued, fun _ => ⟨key, username, hkey', hactive ?_⟩⟩ rfl
      cases keyInactive
      · rfl
      · simp at hvalid
  | validated payload => exact hs.finish hknows rfl
  | threw thrown => exact hs.finish trivial rfl

/-- **A call takes a challenge** by marking it. -/
theorem Good.authenticate (hs : s.Good verifySignature seen) (hnew : s.calls call = none)
    (challenge : JSString) (signature : List UInt8) :
    (s.authenticate config verifySignature call challenge signature).Good verifySignature seen := by
  rw [AuthState.authenticate]
  rcases hget : s.challenges.get? challenge with _ | authChallenge
  · exact hs.finish trivial rfl
  obtain ⟨hid, hgenerated⟩ := hs.stored challenge authChallenge hget
  simp only
  split
  · have hfailed : (s.move call (.authenticated ⟨none, some "Challenge expired"⟩)).Good
        verifySignature seen := hs.finish trivial rfl
    have hdelete : ∀ {id ch}, (s.challenges.delete challenge).get? id = some ch →
        s.challenges.get? id = some ch := by
      intro id ch h
      rw [get?_delete] at h
      split at h
      · cases h
      · exact h
    exact
      { knows := hfailed.knows
        legitimate := hs.legitimate
        stored := fun id ch h => hs.stored id ch (hdelete h)
        spent := fun call' id h => (hfailed.spent call' id h).imp_left
          fun hspent => ⟨hspent.1, fun ch h => hspent.2 ch (hdelete h)⟩
        apart := hfailed.apart
        redeemed_spent := fun id h => ⟨(hs.redeemed_spent id h).1,
          fun ch h' => (hs.redeemed_spent id h).2 ch (hdelete h')⟩
        nodup := hs.nodup }
  split
  · exact hs.finish trivial rfl
  rename_i hunused
  -- nobody works on a challenge that is not marked, and it has no token
  have hfree : ¬s.Spent challenge := fun h => hunused (h.2 authChallenge hget)
  have hset : ∀ {id ch}, (s.challenges.set challenge { authChallenge with used := true }).get? id
      = some ch → id = challenge ∧ ch = { authChallenge with used := true }
        ∨ id ≠ challenge ∧ s.challenges.get? id = some ch := by
    intro id ch h
    rw [get?_set] at h
    split at h
    · rename_i heq
      exact .inl ⟨heq, (some.inj h).symm⟩
    · rename_i hne
      exact .inr ⟨hne, h⟩
  have hspent : ∀ id, s.Spent id → id ∈ s.generated ∧ ∀ ch,
      (s.challenges.set challenge { authChallenge with used := true }).get? id = some ch →
        ch.used = true := by
    intro id h
    refine ⟨h.1, fun ch hch => ?_⟩
    rcases hset hch with ⟨-, rfl⟩ | ⟨-, hold⟩
    · rfl
    · exact h.2 ch hold
  have hmarked : (s.mark challenge authChallenge).Good verifySignature seen :=
    { knows := hs.knows
      legitimate := hs.legitimate
      stored := fun id ch h => by
        rcases hset h with ⟨rfl, rfl⟩ | ⟨-, hold⟩
        · exact ⟨hid, hgenerated⟩
        · exact hs.stored id ch hold
      spent := fun call' id h => (hs.spent call' id h).imp_left (hspent id)
      apart := hs.apart
      redeemed_spent := fun id h => hspent id (hs.redeemed_spent id h)
      nodup := hs.nodup }
  have hbegin : ∀ phase : AuthPhase, phase.Knows verifySignature seen s.issued call →
      phase.attempt? = some ⟨authChallenge, signature⟩ →
      ((s.mark challenge authChallenge).move call phase).Good verifySignature seen := by
    intro phase hknows hattempt
    have hthis : ∀ {call' id}, ((s.mark challenge authChallenge).move call phase).WorksOn call' id →
        call' = call ∧ id = challenge ∨ s.WorksOn call' id ∧ id ≠ challenge := by
      rintro call' id ⟨phase', attempt, hphase', hattempt', rfl⟩
      rcases eq_or_ne call' call with rfl | hne
      · rw [calls_move_self] at hphase'
        obtain rfl := some.inj hphase'
        obtain rfl := some.inj (hattempt.symm.trans hattempt')
        exact .inl ⟨rfl, hid⟩
      · rw [calls_move_of_ne _ hne] at hphase'
        have hold : s.WorksOn call' attempt.challenge.challenge :=
          ⟨phase', attempt, hphase', hattempt', rfl⟩
        exact .inr ⟨hold, fun heq => hfree (heq ▸ (hs.spent call' _ hold).1)⟩
    exact
      { knows := fun call' phase' h => by
          rcases eq_or_ne call' call with rfl | hne
          · rw [calls_move_self] at h
            exact some.inj h ▸ hknows
          · rw [calls_move_of_ne _ hne] at h
            exact hs.knows call' phase' h
        legitimate := hs.legitimate
        stored := hmarked.stored
        spent := fun call' id h => by
          rcases hthis h with ⟨-, rfl⟩ | ⟨hold, -⟩
          · refine ⟨⟨hgenerated, fun ch hch => ?_⟩, fun hmem => hfree (hs.redeemed_spent _ hmem)⟩
            rcases hset hch with ⟨-, rfl⟩ | ⟨hne, -⟩
            · rfl
            · exact absurd rfl hne
          · exact hmarked.spent call' id hold
        apart := fun call₁ call₂ id h₁ h₂ => by
          rcases hthis h₁ with ⟨rfl, rfl⟩ | ⟨hold₁, hne₁⟩
          · rcases hthis h₂ with ⟨rfl, -⟩ | ⟨-, hne₂⟩
            · rfl
            · exact absurd rfl hne₂
          · rcases hthis h₂ with ⟨-, rfl⟩ | ⟨hold₂, -⟩
            · exact absurd rfl hne₁
            · exact hs.apart call₁ call₂ id hold₁ hold₂
        redeemed_spent := hmarked.redeemed_spent
        nodup := hs.nodup }
  split
  · rename_i username husername
    exact hbegin _ (.inl husername) rfl
  · rename_i named husername hnamed
    exact hbegin _ ⟨husername, hnamed⟩ rfl
  · rename_i hnone
    rw [AuthState.authenticateByKey, if_pos (by rw [Attempt.fallbackPems, hnone]; rfl)]
    exact hmarked.finish trivial rfl

theorem Good.generateChallenge (hs : s.Good verifySignature seen) (call : ℕ)
    (username signingPublicKey : Option JSString) :
    (s.generateChallenge call username signingPublicKey).Good verifySignature seen := by
  rw [AuthState.generateChallenge]
  split <;> exact hs.finish trivial rfl

/-- **A token that is looked at** is one that was issued, and records a key. -/
theorem Good.validateToken (hs : s.Good verifySignature seen) (call : ℕ)
    (token : NetworkAuthTokenPayload) :
    (s.validateToken call token).Good verifySignature seen := by
  rw [AuthState.validateToken]
  split
  · exact hs.finish trivial rfl
  rename_i hissued
  obtain ⟨issue, hissue, heq⟩ : ∃ issue ∈ s.issued, issue.payload = token := by
    simpa using hissued
  split
  · exact hs.finish trivial rfl
  split
  · rename_i hwipe
    exact hs.finish ⟨⟨issue, hissue, heq⟩, fun h => nomatch hwipe.symm.trans h⟩ rfl
  · split
    · rename_i key hkey
      exact hs.finish ⟨⟨issue, hissue, heq⟩, hkey⟩ rfl
    · rename_i hnone
      have hrecorded := (hs.legitimate issue hissue).recorded
      rw [heq, hnone] at hrecorded
      exact nomatch hrecorded

/-! ## Runs -/

section Later

variable {seen' : ℕ → (AuthDirectory → Prop) → Prop}

section

variable (hseen : ∀ call P, seen call P → seen' call P)

include hseen

theorem Names.mono (h : attempt.Names seen call username) :
    attempt.Names seen' call username :=
  h.imp_right fun ⟨hnone, named, hnamed, hlookup⟩ => ⟨hnone, named, hnamed, hseen _ _ hlookup⟩

theorem Legitimate.mono {issue : Issue} (h : issue.Legitimate verifySignature seen) :
    issue.Legitimate verifySignature seen' where
  signed := h.signed
  recorded := h.recorded
  holder := by
    have hholder := h.holder
    cases hname : issue.username with
    | some username =>
      rw [hname] at hholder
      exact ⟨Names.mono hseen hholder.1, hseen _ _ hholder.2⟩
    | none =>
      rw [hname] at hholder
      exact ⟨hholder.1, hholder.2.1, hseen _ _ hholder.2.2⟩

theorem Knows.mono {issued : List Issue} (h : phase.Knows verifySignature seen issued call) :
    phase.Knows verifySignature seen' issued call := by
  cases phase with
  | candidates attempt username => exact Names.mono hseen h
  | candidatePrimary attempt username => exact Names.mono hseen h
  | verifying attempt username => exact Names.mono hseen h
  | verifyingPrimary attempt username => exact Names.mono hseen h
  | flagging attempt username key =>
    exact ⟨Names.mono hseen h.1, h.2.1, hseen _ _ h.2.2⟩
  | tokenRevoked payload username keyInactive =>
    obtain ⟨hissued, key, hkey, hactive⟩ := h
    exact ⟨hissued, key, hkey, fun hin => hseen _ _ (hactive hin)⟩
  | validated payload =>
    cases payload with
    | none => trivial
    | some payload =>
      obtain ⟨hissued, hactive⟩ := h
      refine ⟨hissued, fun hwipe => ?_⟩
      obtain ⟨key, username, hkey, hmoment⟩ := hactive hwipe
      exact ⟨key, username, hkey, hseen _ _ hmoment⟩
  | _ => exact h

/-- What held of the moments so far holds of more of them. -/
theorem Good.mono (hs : s.Good verifySignature seen) : s.Good verifySignature seen' where
  knows call phase h := Knows.mono hseen (hs.knows call phase h)
  legitimate issue h := Legitimate.mono hseen (hs.legitimate issue h)
  stored := hs.stored
  spent := hs.spent
  apart := hs.apart
  redeemed_spent := hs.redeemed_spent
  nodup := hs.nodup

end

end Later

theorem good_start (directory : AuthDirectory) (now : ℤ) :
    ({ directory, now } : AuthState).Good verifySignature seen where
  knows _ _ h := nomatch h
  legitimate _ h := nomatch h
  stored _ _ h := nomatch h
  spent := fun _ _ ⟨_, _, h, _⟩ => nomatch h
  apart := fun _ _ _ ⟨_, _, h, _⟩ => nomatch h
  redeemed_spent _ h := nomatch h
  nodup := nodup_nil

section

variable (hkey : ∀ message signature, verifySignature message signature "" = false)

include hkey

/-- **One step** keeps what holds, if it keeps the identity. -/
theorem Good.step (hs : s.Good verifySignature seen) (hsees : SeesNow seen s) {event : AuthEvent}
    (hidentity : KeepsIdentity verifySignature s event) :
    (authStep config verifySignature s event).Good verifySignature seen := by
  cases event with
  | changeDirectory directory => exact { hs with }
  | wait ms => exact { hs with }
  | generateChallenge call username signingPublicKey =>
    rw [authStep]
    split
    · exact hs
    · exact hs.generateChallenge call username signingPublicKey
  | authenticate call challenge signature =>
    rw [authStep]
    split
    · exact hs
    · rename_i hnew
      exact hs.authenticate (not_isSome_iff_eq_none.mp hnew) challenge signature
  | validateToken call token =>
    rw [authStep]
    split
    · exact hs
    · exact hs.validateToken call token
  | next call fails uuid =>
    rw [authStep]
    rcases hphase : s.calls call with _ | phase
    · exact hs
    · exact hs.next hkey hsees hphase hidentity

theorem good_run {directory : AuthDirectory} {now : ℤ} {events : List AuthEvent}
    (hidentity : AllSteps (authStep config verifySignature) (KeepsIdentity verifySignature)
      { directory, now } events) :
    (run (authStep config verifySignature) { directory, now } events).Good verifySignature
      (Moment config verifySignature { directory, now } events) := by
  refine history_induction (motive := fun events =>
    (run (authStep config verifySignature) { directory, now } events).Good verifySignature
      (Moment config verifySignature { directory, now } events))
    (good_start directory now) (fun before event hs hevent => ?_) hidentity
  rw [run_append]
  refine Good.mono (fun call P h => Visits.append h [event]) (hs.step hkey ?_ hevent)
  exact fun call P hrunning hP => visits_run ⟨hrunning, hP⟩

/-- **What every run of the sign-in keeps to**, if each fallback to a named key keeps the identity: a
challenge has at most one token, a token is for a key of whom the challenge was issued for and
records it, and a token that is accepted is for a wipe or its key was active when it was checked. -/
theorem authentication_of_run {directory : AuthDirectory} {now : ℤ} {events : List AuthEvent}
    (hidentity : AllSteps (authStep config verifySignature) (KeepsIdentity verifySignature)
      { directory, now } events) :
    let s := run (authStep config verifySignature) { directory, now } events
    let moment := Moment config verifySignature { directory, now } events
    s.redeemed.Nodup
      ∧ (∀ issue ∈ s.issued, issue.Legitimate verifySignature moment)
      ∧ ∀ call payload, s.calls call = some (.validated (some payload)) →
          (∃ issue ∈ s.issued, issue.payload = payload)
            ∧ (payload.wipe = false → WasActive moment call payload) := by
  have hgood := good_run hkey hidentity
  exact ⟨hgood.nodup, hgood.legitimate, fun call payload h => hgood.knows call _ h⟩

end

end AuthState

/-! ## A user who is revoked after asking for a challenge -/

/-- A signature that only the key's text makes. -/
def signWith (key message : JSString) : List UInt8 :=
  (key.units ++ message.units).map fun unit => UInt8.ofNat unit.val

def verifySignedWith (message : JSString) (signature : List UInt8) (key : JSString) : Bool :=
  !key.isEmpty && signature = signWith key message

/-- A tenant whose user has some devices. -/
def directoryOfDevices (keys : List JSString) : AuthDirectory :=
  TenantDirectory.answers
    { docs := [[("form", .string "useroperation"), ("type", .string "grantaccess"),
        ("username_hash", .string "alice"),
        ("userKeyPairs", .array (keys.map fun key => .object
          [("signingPublicKey", .string key), ("encryptionPublicKey", .string "box")]))]]
      userLookupCache := set ∅ "K" "alice" }
    fun username => [username]

/-- A device asks for a challenge and signs it; its token is then checked. -/
def signIn (between : List AuthEvent) (token : NetworkAuthTokenPayload) : List AuthEvent :=
  [.generateChallenge 1 (some "alice") (some "K"), .next 1 false "", .next 1 false "c1"] ++ between
    ++ [.authenticate 2 "c1" (signWith "K" "c1"), .next 2 false "", .next 2 false "", .next 2 false "",
      .next 2 false "", .next 2 false "", .validateToken 3 token, .next 3 false "", .next 3 false "",
      .next 3 false ""]

def aliceToken : NetworkAuthTokenPayload :=
  { sub := "alice", iat := 0, exp := 3600, tenantId := "t", deviceSigningKey := some "K" }

def aliceConfig : AuthConfig := { tenantId := "t" }

/-- The service after some events. -/
def aliceRun (events : List AuthEvent) : AuthState :=
  run (authStep aliceConfig verifySignedWith) { directory := directoryOfDevices ["K"], now := 0 }
    events

def aliceMoment (events : List AuthEvent) : ℕ → (AuthDirectory → Prop) → Prop :=
  Moment aliceConfig verifySignedWith { directory := directoryOfDevices ["K"], now := 0 } events

theorem verifySignedWith_empty (message : JSString) (signature : List UInt8) :
    verifySignedWith message signature "" = false := rfl

/-- Whether a call may come to the key of its challenge next. -/
def AuthPhase.mayFallBack : AuthPhase → Bool
  | .resolving .. | .verifyingPrimary .. => true
  | _ => false

def mayFallBack (s : AuthState) : AuthEvent → Bool
  | .next call _ _ => (s.calls call).any AuthPhase.mayFallBack
  | _ => false

variable {verifySignature} in
theorem keepsIdentity_of_mayFallBack {s : AuthState} {event : AuthEvent}
    (h : mayFallBack s event = false) : KeepsIdentity verifySignature s event := by
  cases event with
  | next call fails uuid =>
    intro phase hphase attempt key hnamed hverify
    rw [mayFallBack, hphase, any_some] at h
    constructor
    · rintro username rfl
      exact nomatch h
    · rintro rfl
      exact nomatch h
  | _ => trivial

theorem signIn_mayFallBack :
    AllSteps (authStep aliceConfig verifySignedWith) (fun s event => mayFallBack s event = false)
      { directory := directoryOfDevices ["K"], now := 0 } (signIn [] aliceToken) := by decide +kernel

/-- The sign-in of a device that keeps its grant. -/
theorem authentication_of_run_signIn :
    (aliceRun (signIn [] aliceToken)).calls 3 = some (.validated (some aliceToken))
      ∧ (aliceRun (signIn [] aliceToken)).redeemed.Nodup
      ∧ WasActive (aliceMoment (signIn [] aliceToken)) 3 aliceToken := by
  have hvalidated : (aliceRun (signIn [] aliceToken)).calls 3
      = some (.validated (some aliceToken)) := by decide +kernel
  obtain ⟨hnodup, -, hactive⟩ := authentication_of_run verifySignedWith_empty
    (AllSteps.mono (fun _ _ => @keepsIdentity_of_mayFallBack verifySignedWith _ _)
      signIn_mayFallBack)
  rw [← aliceRun] at hnodup hactive
  rw [← aliceMoment] at hactive
  exact ⟨hvalidated, hnodup, (hactive 3 aliceToken hvalidated).2 rfl⟩

/-- **A device whose user was revoked meanwhile** is given a token: the directory has no key of the
user, and the key that the device had named is tried in its place. -/
theorem not_legitimate_revokedMeanwhile :
    ¬∀ issue ∈ (aliceRun (signIn [.changeDirectory (directoryOfDevices [])] aliceToken)).issued,
      issue.Legitimate verifySignedWith
        (aliceMoment (signIn [.changeDirectory (directoryOfDevices [])] aliceToken)) := by
  generalize hevents : signIn [.changeDirectory (directoryOfDevices [])] aliceToken = events
  intro hall
  have hissued : ((aliceRun events).issued.map fun issue =>
      (issue.call, issue.username, issue.matchedKey))
      = [(2, some ("alice" : JSString), ("K" : JSString))] := by
    subst hevents
    decide +kernel
  obtain ⟨issue, hissue, heq⟩ := List.mem_map.mp (hissued ▸ mem_singleton_self _)
  obtain ⟨hcall, husername, hmatched⟩ : issue.call = 2 ∧ issue.username = some "alice"
      ∧ issue.matchedKey = "K" := by simpa using heq
  have hholder := (hall issue hissue).holder
  rw [husername, hcall, hmatched] at hholder
  obtain ⟨before, hbefore, hrunning, huniverse⟩ := hholder.2
  have hnever : ∀ before ∈ events.inits, ¬(((aliceRun before).calls 2).any AuthPhase.running = true
      ∧ (aliceRun before).directory.InUniverse "alice" "K") := by
    subst hevents
    unfold AuthDirectory.InUniverse
    decide +kernel
  exact hnever before ((mem_inits _ _).mpr hbefore) ⟨hrunning, huniverse⟩

end MindooDB
