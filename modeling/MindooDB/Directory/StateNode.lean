import MindooDB.Directory.Types

/-!
# Directory/StateNode — the chain of directory states

`core/accesscontrol/DirectoryStateNode.ts`: the state nodes, the builder that pushes a new node for
every applied change, and the look-up of the node covering a time.  Trusted times are elements of
any linear order with a least one, which plays `Number.NEGATIVE_INFINITY`.
-/

namespace MindooDB

/-- A user's grant: the union of the grant documents of that user. -/
structure UserGrantSnapshot where
  usernameHash : JSString
  signingKeys : List JSString
  encryptionKeys : List JSString
  wipeRequestedSigningKeys : List JSString
  active : Bool
  deriving DecidableEq

structure GroupSnapshot where
  name : JSString
  memberHashes : List JSString
  deriving DecidableEq

variable {τ : Type*}

/-- The collections of a `DirectoryStateNode`, without its predecessor. -/
structure DirectoryState (τ : Type*) where
  trustedTimeUpperBound : τ
  defaultPolicy : Option DefaultAccessPolicyDoc := none
  dbPolicies : LinkedMap JSString DefaultAccessPolicyDoc := ∅
  rulesByType : LinkedMap RuleType (List AclRuleDoc) := ∅
  groupsByName : LinkedMap JSString GroupSnapshot := ∅
  usersByHash : LinkedMap JSString UserGrantSnapshot := ∅
  bySigningKey : LinkedMap JSString UserGrantSnapshot := ∅
  trustedWitnessKeys : LinkedMap JSString TrustedWitnessDoc := ∅

/-- **A node of the chain**: its collections, and those of its predecessors from the latest back to
the genesis node. -/
structure DirectoryStateNode (τ : Type*) where
  state : DirectoryState τ
  prev : List (DirectoryState τ)

variable [LinearOrder τ]

def createGenesisNode [OrderBot τ] : DirectoryStateNode τ := ⟨{ trustedTimeUpperBound := ⊥ }, []⟩

/-- The walk of `nodeCovering`, from a node back. -/
def nodeCoveringFrom [OrderBot τ] (T : τ) : DirectoryState τ → List (DirectoryState τ) → DirectoryStateNode τ
  | state, [] => if state.trustedTimeUpperBound > T then createGenesisNode else ⟨state, []⟩
  | state, before :: rest =>
    if state.trustedTimeUpperBound > T then nodeCoveringFrom T before rest
    else ⟨state, before :: rest⟩

/-- **The most recent node whose bound is at most `T`.** -/
def nodeCovering [OrderBot τ] (head : DirectoryStateNode τ) (T : τ) : DirectoryStateNode τ :=
  nodeCoveringFrom T head.state head.prev

/-- The reverse index of the active grants. -/
def buildBySigningKey (usersByHash : LinkedMap JSString UserGrantSnapshot) :
    LinkedMap JSString UserGrantSnapshot :=
  usersByHash.values.foldl (fun bySigningKey grant =>
    if grant.active then grant.signingKeys.foldl (fun m key => m.set key grant) bySigningKey
    else bySigningKey) ∅

/-- The same signing key, but for the white space of its PEM. -/
def signingKeysEqual (a b : JSString) : Bool :=
  a = b || (stripWhiteSpace a).length > 0 && stripWhiteSpace a = stripWhiteSpace b

/-- The grant of a signing key in the reverse index, the exact key first. -/
def grantForSigningKey (state : DirectoryState τ) (signingKey : JSString) :
    Option UserGrantSnapshot :=
  (state.bySigningKey.get? signingKey).or
    ((state.bySigningKey.toList.find? fun e => signingKeysEqual e.1 signingKey).map Prod.snd)

/-- A recorded change of the chain, with the time it was applied at. -/
inductive DirectoryRevisionDelta (τ : Type*) where
  | defaultPolicy (t : τ) (policy : DefaultAccessPolicyDoc)
  | dbPolicy (t : τ) (dbid : JSString) (policy : DefaultAccessPolicyDoc)
  | rule (t : τ) (rule : AclRuleDoc)
  | removeRule (t : τ) (ruleId : JSString) (ruleType : RuleType)
  | trustedWitness (t : τ) (witness : TrustedWitnessDoc)
  | removeTrustedWitness (t : τ) (witnessPublicKey : JSString)
  | grant (t : τ) (grant : UserGrantSnapshot)
  | grantDoc (t : τ) (docId : JSString) (grant : UserGrantSnapshot)
  | removeGrantDoc (t : τ) (docId : JSString)
  | revokeBySigningKey (t : τ) (signingKey : JSString)
  | groupDoc (t : τ) (docId name : JSString) (memberHashes : List JSString)
  | removeGroupDoc (t : τ) (docId : JSString)
  | setGroups (t : τ) (groups : List GroupSnapshot)

/-- **The builder**: the head of the chain, the log of changes, and what each group and grant
document contributes. -/
structure DirectoryStateChainBuilder (τ : Type*) where
  head : DirectoryStateNode τ
  deltaLog : List (DirectoryRevisionDelta τ) := []
  groupContributions : LinkedMap JSString GroupSnapshot := ∅
  grantContributions : LinkedMap JSString UserGrantSnapshot := ∅

namespace DirectoryStateChainBuilder

/-- A builder at the genesis node, as `reset` leaves it. -/
def fresh [OrderBot τ] : DirectoryStateChainBuilder τ := { head := createGenesisNode }

variable (b : DirectoryStateChainBuilder τ)

/-- The state in force at a time. -/
def getStateAt [OrderBot τ] (T : τ) : DirectoryStateNode τ := nodeCovering b.head T

/-- Push a node derived from the head. -/
def push (trustedTime : τ) (mutate : DirectoryState τ → DirectoryState τ) :
    DirectoryStateChainBuilder τ :=
  let bound := max trustedTime b.head.state.trustedTimeUpperBound
  { b with
    head :=
      { state := mutate { b.head.state with trustedTimeUpperBound := bound }
        prev := b.head.state :: b.head.prev } }

/-- `deltaLog.push`. -/
def log (delta : DirectoryRevisionDelta τ) : DirectoryStateChainBuilder τ :=
  { b with deltaLog := b.deltaLog ++ [delta] }

def applyDefaultPolicy (policy : DefaultAccessPolicyDoc) (trustedTime : τ) :
    DirectoryStateChainBuilder τ :=
  (b.log (.defaultPolicy trustedTime policy)).push trustedTime fun next =>
    { next with defaultPolicy := some policy }

def applyDbPolicy (dbid : JSString) (policy : DefaultAccessPolicyDoc) (trustedTime : τ) :
    DirectoryStateChainBuilder τ :=
  (b.log (.dbPolicy trustedTime dbid policy)).push trustedTime fun next =>
    { next with dbPolicies := next.dbPolicies.set dbid policy }

def applyRule (rule : AclRuleDoc) (trustedTime : τ) : DirectoryStateChainBuilder τ :=
  (b.log (.rule trustedTime rule)).push trustedTime fun next =>
    let existing := (next.rulesByType.get? rule.type).getD []
    { next with
      rulesByType := next.rulesByType.set rule.type
        (existing.filter (fun r => r.ruleId ≠ rule.ruleId) ++ [rule]) }

def removeRule (ruleId : JSString) (ruleType : RuleType) (trustedTime : τ) :
    DirectoryStateChainBuilder τ :=
  (b.log (.removeRule trustedTime ruleId ruleType)).push trustedTime fun next =>
    let existing := (next.rulesByType.get? ruleType).getD []
    { next with
      rulesByType := next.rulesByType.set ruleType (existing.filter fun r => r.ruleId ≠ ruleId) }

def applyTrustedWitness (witness : TrustedWitnessDoc) (trustedTime : τ) :
    DirectoryStateChainBuilder τ :=
  (b.log (.trustedWitness trustedTime witness)).push trustedTime fun next =>
    { next with
      trustedWitnessKeys := next.trustedWitnessKeys.set witness.witnessPublicKey witness }

def removeTrustedWitness (witnessPublicKey : JSString) (trustedTime : τ) :
    DirectoryStateChainBuilder τ :=
  (b.log (.removeTrustedWitness trustedTime witnessPublicKey)).push trustedTime fun next =>
    { next with trustedWitnessKeys := next.trustedWitnessKeys.delete witnessPublicKey }

/-- Add one grant document's keys to the union: the first encryption key of a signing key stays. -/
def unionGrant (encBySigning : LinkedMap JSString JSString) (contribution : UserGrantSnapshot) :
    LinkedMap JSString JSString :=
  contribution.signingKeys.zipIdx.foldl (fun m (signingKey, index) =>
    if m.has signingKey then m
    else m.set signingKey (contribution.encryptionKeys[index]?.getD "")) encBySigning

/-- The union of the grant documents of one user; `none` when there are none. -/
def userUnion (contributions : LinkedMap JSString UserGrantSnapshot) (usernameHash : JSString) :
    Option UserGrantSnapshot :=
  let own := contributions.values.filter fun c => c.usernameHash = usernameHash
  let encBySigning := own.foldl unionGrant ∅
  let wipeRequested := own.foldl (fun s c => s.addAll c.wipeRequestedSigningKeys) (∅ : LinkedSet JSString)
  if own.isEmpty then none
  else
    some
      { usernameHash
        signingKeys := encBySigning.keys
        encryptionKeys := encBySigning.keys.map fun key => (encBySigning.get? key).getD ""
        wipeRequestedSigningKeys := wipeRequested.toList
        active := encBySigning.keys.length > 0 }

/-- `m.set(k, v)`, or `m.delete(k)` when there is no value. -/
def setOrDelete {κ ν : Type*} [DecidableEq κ] (m : LinkedMap κ ν) (k : κ) : Option ν → LinkedMap κ ν
  | some v => m.set k v
  | none => m.delete k

/-- The keys of a user, from all grants. -/
def recomputeUser (usernameHash : JSString) (trustedTime : τ) : DirectoryStateChainBuilder τ :=
  b.push trustedTime fun next =>
    let usersByHash :=
      setOrDelete next.usersByHash usernameHash (userUnion b.grantContributions usernameHash)
    { next with usersByHash, bySigningKey := buildBySigningKey usersByHash }

def applyGrantDoc (docId : JSString) (grant : UserGrantSnapshot) (trustedTime : τ) :
    DirectoryStateChainBuilder τ :=
  let previous := b.grantContributions.get? docId
  let b := { b.log (.grantDoc trustedTime docId grant) with
    grantContributions := b.grantContributions.set docId grant }
  let b := match previous with
    | some p => if p.usernameHash ≠ grant.usernameHash then b.recomputeUser p.usernameHash trustedTime else b
    | none => b
  b.recomputeUser grant.usernameHash trustedTime

/-- A grant as the one document of its user. -/
def applyGrant (grant : UserGrantSnapshot) (trustedTime : τ) : DirectoryStateChainBuilder τ :=
  b.applyGrantDoc ("grant:" ++ grant.usernameHash) grant trustedTime

def removeGrantDoc (docId : JSString) (trustedTime : τ) : DirectoryStateChainBuilder τ :=
  match b.grantContributions.get? docId with
  | none => b
  | some existing =>
    let b := { b.log (.removeGrantDoc trustedTime docId) with
      grantContributions := b.grantContributions.delete docId }
    b.recomputeUser existing.usernameHash trustedTime

def revokeBySigningKey (signingKey : JSString) (trustedTime : τ) : DirectoryStateChainBuilder τ :=
  match grantForSigningKey b.head.state signingKey with
  | none => b
  | some grant =>
    (b.log (.revokeBySigningKey trustedTime signingKey)).push trustedTime fun next =>
      let deactivated := { grant with active := false }
      let usersByHash := next.usersByHash.set deactivated.usernameHash deactivated
      { next with usersByHash, bySigningKey := buildBySigningKey usersByHash }

/-- The union of the group documents of one name; `none` when there are none. -/
def groupUnion (contributions : LinkedMap JSString GroupSnapshot) (name : JSString) :
    Option GroupSnapshot :=
  let own := contributions.values.filter fun c => c.name = name
  let memberHashes := own.foldl (fun s c => s.addAll c.memberHashes) (∅ : LinkedSet JSString)
  if own.isEmpty then none else some ⟨name, memberHashes.toList⟩

/-- The members of a group, from all documents. -/
def recomputeGroup (name : JSString) (trustedTime : τ) : DirectoryStateChainBuilder τ :=
  b.push trustedTime fun next =>
    { next with
      groupsByName := setOrDelete next.groupsByName name (groupUnion b.groupContributions name) }

def applyGroupDoc (docId name : JSString) (memberHashes : List JSString) (trustedTime : τ) :
    DirectoryStateChainBuilder τ :=
  let b := { b.log (.groupDoc trustedTime docId name memberHashes) with
    groupContributions := b.groupContributions.set docId ⟨name, memberHashes⟩ }
  b.recomputeGroup name trustedTime

def removeGroupDoc (docId : JSString) (trustedTime : τ) : DirectoryStateChainBuilder τ :=
  match b.groupContributions.get? docId with
  | none => b
  | some existing =>
    let b := { b.log (.removeGroupDoc trustedTime docId) with
      groupContributions := b.groupContributions.delete docId }
    b.recomputeGroup existing.name trustedTime

def setGroups (groups : LinkedMap JSString GroupSnapshot) (trustedTime : τ) :
    DirectoryStateChainBuilder τ :=
  (b.log (.setGroups trustedTime groups.values)).push trustedTime fun next =>
    { next with groupsByName := groups }

end DirectoryStateChainBuilder

/-! ## The chain -/

/-- The states of a node and its predecessors, latest first. -/
def DirectoryStateNode.chain (node : DirectoryStateNode τ) : List (DirectoryState τ) :=
  node.state :: node.prev

/-- **The covering node heads what is left of the chain** once the states above `T` are gone. -/
theorem nodeCovering_eq [OrderBot τ] {head node : DirectoryStateNode τ} {T : τ}
    {later : List (DirectoryState τ)} (hchain : head.chain = later ++ node.chain)
    (hlater : ∀ s ∈ later, T < s.trustedTimeUpperBound) (hnode : node.state.trustedTimeUpperBound ≤ T) :
    nodeCovering head T = node := by
  obtain ⟨state, prev⟩ := head
  obtain ⟨state', prev'⟩ := node
  change nodeCoveringFrom T state prev = ⟨state', prev'⟩
  change state :: prev = later ++ state' :: prev' at hchain
  induction later generalizing state prev with
  | nil =>
    obtain ⟨rfl, rfl⟩ := List.cons.inj hchain
    cases prev <;> simp [nodeCoveringFrom, not_lt.mpr hnode]
  | cons s later ih =>
    obtain ⟨rfl, hprev⟩ := List.cons.inj hchain
    have hs : T < state.trustedTimeUpperBound := hlater state List.mem_cons_self
    rcases prev with _ | ⟨s', rest⟩
    · simp at hprev
    · rw [nodeCoveringFrom, if_pos hs]
      exact ih (fun t ht => hlater t (List.mem_cons_of_mem _ ht)) s' rest hprev

namespace DirectoryStateChainBuilder

/-- The builder `b'` carries the chain of `b` on, with states bounded by the later of `t` and the
bound of `b`. -/
def Extends (t : τ) (b b' : DirectoryStateChainBuilder τ) : Prop :=
  ∃ later, b'.head.chain = later ++ b.head.chain ∧
    ∀ s ∈ later, s.trustedTimeUpperBound = max t b.head.state.trustedTimeUpperBound

namespace Extends

variable {t : τ} {b b' b'' : DirectoryStateChainBuilder τ}

theorem refl (t : τ) (b : DirectoryStateChainBuilder τ) : Extends t b b := ⟨[], by simp⟩

/-- Nothing but the head matters. -/
theorem of_head_eq (h : Extends t b b') {b₁ : DirectoryStateChainBuilder τ}
    (hb : b₁.head = b.head) : Extends t b₁ b' := by
  rwa [Extends, hb]

theorem bound (h : Extends t b b') : b'.head.state.trustedTimeUpperBound
    = b.head.state.trustedTimeUpperBound ∨ b'.head.state.trustedTimeUpperBound
    = max t b.head.state.trustedTimeUpperBound := by
  obtain ⟨later, hchain, hlater⟩ := h
  rcases later with _ | ⟨s, later⟩
  · exact .inl (congrArg DirectoryState.trustedTimeUpperBound (List.cons.inj hchain).1)
  · refine .inr ?_
    rw [(List.cons.inj hchain).1]
    exact hlater s List.mem_cons_self

theorem trans (h : Extends t b b') (h' : Extends t b' b'') : Extends t b b'' := by
  have hbound := h.bound
  obtain ⟨later, hchain, hlater⟩ := h
  obtain ⟨later', hchain', hlater'⟩ := h'
  refine ⟨later' ++ later, by rw [hchain', hchain, List.append_assoc], fun s hs => ?_⟩
  rcases List.mem_append.mp hs with hs | hs
  · rw [hlater' s hs]
    rcases hbound with hb | hb <;> rw [hb]
    exact max_eq_right (le_max_left t _)
  · exact hlater s hs

end Extends

section Steps

variable (b : DirectoryStateChainBuilder τ) (t : τ)

variable {mutate : DirectoryState τ → DirectoryState τ}

theorem extends_push (hmutate : ∀ s, (mutate s).trustedTimeUpperBound = s.trustedTimeUpperBound) :
    Extends t b (b.push t mutate) :=
  ⟨[(b.push t mutate).head.state], rfl, fun s hs => by
    rw [List.mem_singleton.mp hs]
    exact hmutate _⟩

theorem extends_log_push (delta : DirectoryRevisionDelta τ)
    (hmutate : ∀ s, (mutate s).trustedTimeUpperBound = s.trustedTimeUpperBound) :
    Extends t b ((b.log delta).push t mutate) := (extends_push _ t hmutate).of_head_eq rfl

theorem extends_recomputeUser (usernameHash : JSString) :
    Extends t b (b.recomputeUser usernameHash t) := extends_push b t fun _ => rfl

theorem extends_recomputeGroup (name : JSString) : Extends t b (b.recomputeGroup name t) :=
  extends_push b t fun _ => rfl

theorem extends_applyGrantDoc (docId : JSString) (grant : UserGrantSnapshot) :
    Extends t b (b.applyGrantDoc docId grant t) := by
  unfold applyGrantDoc
  refine Extends.trans ?_ (extends_recomputeUser _ t grant.usernameHash)
  split
  · split
    · exact (extends_recomputeUser _ t _).of_head_eq rfl
    · exact (Extends.refl t _).of_head_eq rfl
  · exact (Extends.refl t _).of_head_eq rfl

theorem extends_removeGrantDoc (docId : JSString) : Extends t b (b.removeGrantDoc docId t) := by
  unfold removeGrantDoc
  split
  · exact .refl t b
  · exact (extends_recomputeUser _ t _).of_head_eq rfl

theorem extends_removeGroupDoc (docId : JSString) : Extends t b (b.removeGroupDoc docId t) := by
  unfold removeGroupDoc
  split
  · exact .refl t b
  · exact (extends_recomputeGroup _ t _).of_head_eq rfl

end Steps

end DirectoryStateChainBuilder

end MindooDB
