import MindooDB.Directory.StateNode

/-!
# Access/Evaluate — the verdict of the access rules

`core/accesscontrol/evaluate.ts` and `effectivePolicy` of `core/accesscontrol/types.ts`.  A server
cannot read documents: it skips the rules with `withfields` clauses and defers to the clients where
one of them could change the verdict.  `evaluateAccess_server` says that it never denies what a
client allows.

Documents are read as the records of their own fields.
-/

namespace MindooDB

open DefaultAccessPolicyDoc Json

/-- The name of a rule type. -/
def RuleType.name : RuleType → JSString
  | .docCreate => "doc_create"
  | .docChange => "doc_change"
  | .docDelete => "doc_delete"
  | .docUndelete => "doc_undelete"
  | .docSnapshot => "doc_snapshot"
  | .docRead => "doc_read"

/-! ## The effective policy -/

/-- The field of a policy that gates a rule type. -/
def DefaultAccessPolicyDoc.denyField (policy : DefaultAccessPolicyDoc) : RuleType → Option Bool
  | .docCreate => policy.denyDocCreate
  | .docChange => policy.denyDocChange
  | .docDelete => policy.denyDocDelete
  | .docUndelete => policy.denyDocUndelete
  | .docSnapshot => policy.denyDocSnapshot
  | .docRead => policy.denyDocRead

/-- `DEFAULT_POLICY_DEFAULTS`. -/
def defaultPolicyDefaults : RuleType → Bool
  | .docSnapshot => true
  | _ => false

structure EffectivePolicy where
  disableAllAccessChecksAndPolicies : Bool
  denyDocCreate : Bool
  denyDocChange : Bool
  denyDocDelete : Bool
  denyDocUndelete : Bool
  denyDocSnapshot : Bool
  denyDocRead : Bool
  defaultCreateKeyId : Option JSString

/-- The database's policy over the tenant's, over the defaults. -/
def effectivePolicy (tenantDefault dbPolicy : Option DefaultAccessPolicyDoc) : EffectivePolicy :=
  let pick (field : RuleType) : Bool :=
    ((dbPolicy.bind fun policy => policy.denyField field).or
      (tenantDefault.bind fun policy => policy.denyField field)).getD (defaultPolicyDefaults field)
  { disableAllAccessChecksAndPolicies :=
      ((dbPolicy.bind disableAllAccessChecksAndPolicies).or
        (tenantDefault.bind disableAllAccessChecksAndPolicies)).getD false
    denyDocCreate := pick .docCreate
    denyDocChange := pick .docChange
    denyDocDelete := pick .docDelete
    denyDocUndelete := pick .docUndelete
    denyDocSnapshot := pick .docSnapshot
    denyDocRead := pick .docRead
    defaultCreateKeyId :=
      (dbPolicy.bind defaultCreateKeyId).or
        (tenantDefault.bind defaultCreateKeyId) }

def EffectivePolicy.denies (eff : EffectivePolicy) : RuleType → Bool
  | .docCreate => eff.denyDocCreate
  | .docChange => eff.denyDocChange
  | .docDelete => eff.denyDocDelete
  | .docUndelete => eff.denyDocUndelete
  | .docSnapshot => eff.denyDocSnapshot
  | .docRead => eff.denyDocRead

/-! ## Clauses -/

/-- The acting user. -/
structure IdentitySet where
  username : JSString
  usernames : List JSString
  groups : List JSString
  hashes : LinkedSet JSString

/-- `readPath`: follow a dot-path into a document. -/
def readPath (doc : Option JsonObject) (key : JSString) : Option Json :=
  match doc with
  | none => none
  | some doc =>
    (key.split '.').foldl (fun cur part => cur.bind fun value => value.property? part)
      (some (.object doc))

/-- What a clause's value resolves to: a scalar, a list, or both. -/
structure ResolvedValue where
  scalar : Option Json := none
  list : Option (List Json) := none

def resolveValue (value : Option Json) (identity : IdentitySet) : ResolvedValue :=
  if isString value "${user.username}" then
    ⟨some (.string identity.username), some [.string identity.username]⟩
  else if isString value "${user.usernames}" then
    { list := some (identity.usernames.map .string) }
  else if isString value "${user.groups}" then
    { list := some (identity.groups.map .string) }
  else
    match asArray? value with
    | some items => { list := some items }
    | none => { scalar := value }

/-- `list ?? (scalar !== undefined ? [scalar] : [])`. -/
def ResolvedValue.asList (resolved : ResolvedValue) : List Json :=
  resolved.list.getD resolved.scalar.toList

/-- One clause of a rule, on one document. -/
def evaluateClause (clause : JsonObject) (doc : Option JsonObject) (identity : IdentitySet) : Bool :=
  let op := clause.field "op"
  let docValue := readPath doc ((asString? (clause.field "key")).getD "")
  let resolved := resolveValue (clause.field "value") identity
  let includes (items : List Json) (v : Json) : Bool := items.any fun item => item.strictEquals v
  let equal := resolved.scalar.any fun scalar => docValue.any fun v => v.strictEquals scalar
  let compare (test : ℚ → ℚ → Bool) : Bool :=
    match asFiniteNumber? docValue, asFiniteNumber? resolved.scalar with
    | some a, some b => test a b
    | _, _ => false
  if isString op "exists" then docValue.isSome
  else if isString op "notExists" then docValue.isNone
  else if isString op "equals" then equal
  else if isString op "notEquals" then !equal
  else if isString op "contains" then
    match resolved.scalar, docValue with
    | some needle, some (.array items) => includes items needle
    | some (.string needle), some (.string s) => s.includes needle
    | _, _ => false
  else if isString op "containsAny" then
    match docValue with
    | some (.array items) => resolved.asList.any (includes items)
    | _ => false
  else if isString op "containsAll" then
    match docValue with
    | some (.array items) => resolved.asList.all (includes items)
    | _ => false
  else if isString op "gt" then compare fun a b => a > b
  else if isString op "gte" then compare fun a b => a ≥ b
  else if isString op "lt" then compare fun a b => a < b
  else if isString op "lte" then compare fun a b => a ≤ b
  else false

/-! ## The verdict -/

/-- Which tier of the policy decides. -/
inductive AccessTier where
  | tier1
  | tier2
  deriving DecidableEq

structure AccessDecision where
  allowed : Bool
  reason : JSString
  matchedRuleId : Option JSString
  tier : AccessTier
  deriving DecidableEq

variable {τ : Type*}

/-- The inputs of `evaluateAccess`. -/
structure EvaluateAccessInput (τ : Type*) where
  op : RuleType
  dbid : JSString
  identity : IdentitySet
  node : DirectoryStateNode τ
  beforeDoc : Option JsonObject
  afterDoc : Option JsonObject
  isServer : Bool

/-- Whether a clause looks at the document after the change. -/
def looksAfter (clause : JsonObject) (op : RuleType) : Bool :=
  match clause.field "when" with
  | none | some .null => op = .docCreate
  | when => isString when "after"

/-- Every clause of a rule holds of the document it looks at. -/
def withFieldsPass (rule : AclRuleDoc) (input : EvaluateAccessInput τ) : Bool :=
  (rule.withfields.getD []).all fun clause =>
    evaluateClause clause (if looksAfter clause input.op then input.afterDoc else input.beforeDoc)
      input.identity

/-- Whether a rule has clauses. -/
def AclRuleDoc.isTier2 (rule : AclRuleDoc) : Bool := (rule.withfields.getD []).length > 0

/-- The variables of the loop over the candidate rules. -/
structure RuleScan where
  denyMatched : Option (AclRuleDoc × AccessTier) := none
  allowMatched : Option (AclRuleDoc × AccessTier) := none
  tier2AllowDeferred : Bool := false
  tier2DenyDeferred : Bool := false

/-- The loop body. -/
def scanRule (input : EvaluateAccessInput τ) (s : RuleScan) (rule : AclRuleDoc) : RuleScan :=
  let isTier2 := rule.isTier2
  if isTier2 && input.isServer then
    match rule.action with
    | .allow => { s with tier2AllowDeferred := true }
    | .deny => { s with tier2DenyDeferred := true }
  else
    let matched := if isTier2 then withFieldsPass rule input else true
    if !matched then s
    else
      let tier := if isTier2 then AccessTier.tier2 else .tier1
      match rule.action with
      | .deny => { s with denyMatched := s.denyMatched.or (some (rule, tier)) }
      | .allow => { s with allowMatched := s.allowMatched.or (some (rule, tier)) }

/-- The rules of the operation that name the database and the user. -/
def candidateRules (input : EvaluateAccessInput τ) : List AclRuleDoc :=
  ((input.node.state.rulesByType.get? input.op).getD []).filter fun rule =>
    (rule.dbid = input.dbid || rule.dbid = "*") &&
      rule.usersHashes.any fun hash => hash ∈ input.identity.hashes

def allow (reason : JSString) (tier : AccessTier) (matchedRuleId : Option JSString) :
    AccessDecision := ⟨true, reason, matchedRuleId, tier⟩

def deny (reason : JSString) (tier : AccessTier) (matchedRuleId : Option JSString) :
    AccessDecision := ⟨false, reason, matchedRuleId, tier⟩

/-- The decision once the rules have been gone through. -/
def concludeAccess (input : EvaluateAccessInput τ) (baselineDenied : Bool) (s : RuleScan) :
    AccessDecision :=
  match s.denyMatched with
  | some (rule, tier) =>
    deny (("denied by rule " : JSString) ++ rule.ruleId) tier (some rule.ruleId)
  | none =>
    match s.allowMatched with
    | some (rule, tier) =>
      allow (("allowed by rule " : JSString) ++ rule.ruleId) tier (some rule.ruleId)
    | none =>
      if input.isServer && baselineDenied && s.tier2AllowDeferred then
        allow "baseline deny may be overridden by a Tier 2 allow (deferred to client)" .tier1 none
      else if input.isServer && !baselineDenied && s.tier2DenyDeferred then
        allow "baseline allow; Tier 2 deny deferred to client" .tier1 none
      else if baselineDenied then
        deny (("denied by baseline policy for " : JSString) ++ input.op.name) .tier1 none
      else allow (("allowed by baseline policy for " : JSString) ++ input.op.name) .tier1 none

/-- **The verdict** on one operation. -/
def evaluateAccess (input : EvaluateAccessInput τ) : AccessDecision :=
  match input.node.state.defaultPolicy with
  | none => allow "access control not enabled (no default policy)" .tier1 none
  | some defaultPolicy =>
    let dbPolicy := input.node.state.dbPolicies.get? input.dbid
    let eff := effectivePolicy (some defaultPolicy) dbPolicy
    if eff.disableAllAccessChecksAndPolicies then
      allow "access control disabled by master switch" .tier1 none
    else
      concludeAccess input (eff.denies input.op) ((candidateRules input).foldl (scanRule input) {})

/-! ## What the loop finds -/

/-- The candidate has an action to take that this side can tell. -/
def Applies (input : EvaluateAccessInput τ) (rule : AclRuleDoc) : Prop :=
  if rule.isTier2 then input.isServer = false ∧ withFieldsPass rule input = true else True

/-- **What a scan of the rules has found**, up to which rule it names. -/
structure Found (input : EvaluateAccessInput τ) (l : List AclRuleDoc) (s : RuleScan) : Prop where
  deny : s.denyMatched.isSome = true ↔ ∃ rule ∈ l, rule.action = .deny ∧ Applies input rule
  allow : s.allowMatched.isSome = true ↔ ∃ rule ∈ l, rule.action = .allow ∧ Applies input rule
  allowDeferred : s.tier2AllowDeferred = true ↔
    ∃ rule ∈ l, rule.action = .allow ∧ rule.isTier2 = true ∧ input.isServer = true
  denyDeferred : s.tier2DenyDeferred = true ↔
    ∃ rule ∈ l, rule.action = .deny ∧ rule.isTier2 = true ∧ input.isServer = true

theorem Found.scanRule {input : EvaluateAccessInput τ} {l : List AclRuleDoc} {s : RuleScan}
    (h : Found input l s) (rule : AclRuleDoc) :
    Found input (l ++ [rule]) (scanRule input s rule) := by
  obtain ⟨hdeny, hallow, hallowDeferred, hdenyDeferred⟩ := h
  unfold MindooDB.scanRule
  cases haction : rule.action <;> cases htier : rule.isTier2 <;> cases hserver : input.isServer <;>
    cases hpass : withFieldsPass rule input <;>
    constructor <;> simp_all [Applies, or_and_right, exists_or]

theorem found_foldl (input : EvaluateAccessInput τ) (l : List AclRuleDoc) :
    Found input l (l.foldl (scanRule input) {}) := by
  induction l using List.reverseRecOn with
  | nil => constructor <;> simp
  | append_singleton l rule ih =>
    rw [List.foldl_append]
    exact ih.scanRule rule

/-- What the decision says, whichever rule it names. -/
theorem allowed_concludeAccess (input : EvaluateAccessInput τ) (baselineDenied : Bool)
    (s : RuleScan) : (concludeAccess input baselineDenied s).allowed = true ↔
      s.denyMatched.isSome = false ∧ (s.allowMatched.isSome = true ∨ baselineDenied = false ∨
        (input.isServer = true ∧ s.tier2AllowDeferred = true)) := by
  unfold concludeAccess
  rcases s.denyMatched with _ | ⟨rule, tier⟩
  swap
  · simp [deny]
  rcases s.allowMatched with _ | ⟨rule, tier⟩
  swap
  · simp [allow]
  cases input.isServer <;> cases baselineDenied <;> cases s.tier2AllowDeferred <;>
    cases s.tier2DenyDeferred <;> simp [allow, deny]

/-- The rules decide: there is a default policy, and no master switch. -/
def rulesDecide (input : EvaluateAccessInput τ) : Option EffectivePolicy :=
  input.node.state.defaultPolicy.bind fun defaultPolicy =>
    let eff := effectivePolicy (some defaultPolicy) (input.node.state.dbPolicies.get? input.dbid)
    if eff.disableAllAccessChecksAndPolicies then none else some eff

/-- **When a verdict allows**: nothing denies, and a rule allows, or the baseline does, or the server
leaves it to the clients. -/
theorem allowed_evaluateAccess (input : EvaluateAccessInput τ) :
    (evaluateAccess input).allowed = true ↔ ∀ eff, rulesDecide input = some eff →
      (¬ ∃ rule ∈ candidateRules input, rule.action = .deny ∧ Applies input rule) ∧
      ((∃ rule ∈ candidateRules input, rule.action = .allow ∧ Applies input rule) ∨
        eff.denies input.op = false ∨
        (input.isServer = true ∧
          ∃ rule ∈ candidateRules input, rule.action = .allow ∧ rule.isTier2 = true)) := by
  unfold evaluateAccess rulesDecide
  rcases input.node.state.defaultPolicy with _ | defaultPolicy
  · simp [allow]
  simp only [Option.bind_some]
  split
  · simp [allow]
  · have hfound := found_foldl input (candidateRules input)
    rw [allowed_concludeAccess, ← Bool.not_eq_true, hfound.deny, hfound.allow,
      hfound.allowDeferred]
    simp only [Option.some.injEq, forall_eq']
    refine and_congr_right fun _ => or_congr_right (or_congr_right ?_)
    constructor
    · rintro ⟨hs, rule, hr, ha, ht, _⟩
      exact ⟨hs, rule, hr, ha, ht⟩
    · rintro ⟨hs, rule, hr, ha, ht⟩
      exact ⟨hs, rule, hr, ha, ht, hs⟩

/-- Two verdicts agree where the rules that apply have the same actions. -/
theorem allowed_congr {input input' : EvaluateAccessInput τ}
    (hrules : rulesDecide input = rulesDecide input') (hop : input.op = input'.op)
    (happlies : ∀ action, (∃ rule ∈ candidateRules input, rule.action = action ∧ Applies input rule)
      ↔ ∃ rule ∈ candidateRules input', rule.action = action ∧ Applies input' rule)
    (hdeferred : (input.isServer = true ∧
        ∃ rule ∈ candidateRules input, rule.action = .allow ∧ rule.isTier2 = true)
      ↔ input'.isServer = true ∧
        ∃ rule ∈ candidateRules input', rule.action = .allow ∧ rule.isTier2 = true) :
    (evaluateAccess input).allowed = (evaluateAccess input').allowed := by
  rw [Bool.eq_iff_iff, allowed_evaluateAccess, allowed_evaluateAccess, hrules, hop,
    happlies .deny, happlies .allow, hdeferred]

/-! ## Server and client -/

/-- The same inputs on a server, or on a client. -/
def EvaluateAccessInput.on (input : EvaluateAccessInput τ) (isServer : Bool) :
    EvaluateAccessInput τ := { input with isServer }

/-- The same inputs with other rules. -/
def EvaluateAccessInput.withRules (input : EvaluateAccessInput τ)
    (rulesByType : LinkedMap RuleType (List AclRuleDoc)) : EvaluateAccessInput τ :=
  { input with node := { input.node with state := { input.node.state with rulesByType } } }

/-- **What clients may rely on**: a server allows what a client allows; without clauses in the
candidate rules both say the same; and the arrangement of the rules does not matter to either. -/
structure NeverOverDenies (input : EvaluateAccessInput τ) : Prop where
  server : (evaluateAccess (input.on false)).allowed = true →
    (evaluateAccess (input.on true)).allowed = true
  agree : (∀ rule ∈ candidateRules input, rule.isTier2 = false) →
    (evaluateAccess (input.on false)).allowed = (evaluateAccess (input.on true)).allowed
  arrangement : ∀ rulesByType : LinkedMap RuleType (List AclRuleDoc),
    (∀ type, ((rulesByType.get? type).getD []).Perm
      ((input.node.state.rulesByType.get? type).getD [])) →
    ∀ isServer, (evaluateAccess ((input.withRules rulesByType).on isServer)).allowed
      = (evaluateAccess (input.on isServer)).allowed

/-- A server goes by no more rules than a client does. -/
theorem applies_of_server {input : EvaluateAccessInput τ} {rule : AclRuleDoc}
    (h : Applies (input.on true) rule) : Applies (input.on false) rule := by
  unfold Applies at *
  split
  · rename_i htier
    simp [htier, EvaluateAccessInput.on] at h
  · trivial

/-- A rule without clauses goes for both. -/
theorem applies_of_tier1 (input : EvaluateAccessInput τ) {rule : AclRuleDoc}
    (h : rule.isTier2 = false) : Applies input rule := by simp [Applies, h]

/-- A rule that a client goes by is one for the server, or one it defers to the clients. -/
theorem applies_or_tier2 (input : EvaluateAccessInput τ) (rule : AclRuleDoc) :
    Applies input rule ∨ rule.isTier2 = true := by
  cases h : rule.isTier2
  · exact .inl (applies_of_tier1 input h)
  · exact .inr rfl

/-- **A server never denies what a client allows.** -/
theorem evaluateAccess_server (input : EvaluateAccessInput τ) : NeverOverDenies input := by
  refine ⟨fun hclient => ?_, fun htier => ?_, fun rulesByType hperm isServer => ?_⟩
  · rw [allowed_evaluateAccess] at hclient ⊢
    intro eff heff
    obtain ⟨hdeny, hallow⟩ := hclient eff heff
    refine ⟨fun ⟨rule, hr, ha, happlies⟩ => hdeny ⟨rule, hr, ha, applies_of_server happlies⟩, ?_⟩
    rcases hallow with ⟨rule, hr, ha, -⟩ | hbase | ⟨hserver, -⟩
    · rcases applies_or_tier2 (input.on true) rule with happlies | htier
      · exact Or.inl ⟨rule, hr, ha, happlies⟩
      · exact Or.inr (Or.inr ⟨rfl, rule, hr, ha, htier⟩)
    · exact Or.inr (Or.inl hbase)
    · simp [EvaluateAccessInput.on] at hserver
  · refine allowed_congr rfl rfl (fun action => ?_) ?_
    · refine exists_congr fun rule => and_congr_right fun hr => and_congr_right fun _ => ?_
      exact iff_of_true (applies_of_tier1 _ (htier rule hr)) (applies_of_tier1 _ (htier rule hr))
    · refine iff_of_false ?_ ?_ <;>
        exact fun ⟨_, rule, hr, _, htrue⟩ => by simp [htier rule hr] at htrue
  · have hmem : ∀ rule, rule ∈ candidateRules ((input.withRules rulesByType).on isServer)
        ↔ rule ∈ candidateRules (input.on isServer) := fun rule =>
      ((hperm input.op).filter _).mem_iff
    refine allowed_congr rfl rfl (fun action => ?_) ?_
    · exact exists_congr fun rule => and_congr_left' (hmem rule)
    · exact and_congr_right' (exists_congr fun rule => and_congr_left' (hmem rule))

end MindooDB
