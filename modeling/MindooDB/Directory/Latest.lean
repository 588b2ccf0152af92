import MindooDB.Directory.Change
import MindooDB.Lib.LatestBy

/-!
# Directory/Latest — what the latest revisions say

The tables of the head should depend on the latest revision of each document only: `Reflects` spells
out how, and `InPlace` which revisions keep it so.  The builder tracks what each grant and group
document contributes, but a group document that changes its name, a rule or witness document that
changes its key, and a document that changes its kind leave their old entry standing.
-/

namespace MindooDB

open DirectoryStateChainBuilder

variable {τ : Type*}

/-! ## What the latest revisions say -/

/-- The latest change of each document, in the order the documents were last revised in. -/
abbrev LatestChanges := List (JSString × DirectoryChange)

def DirectoryChange.group? : DirectoryChange → Option GroupSnapshot
  | .setGroup group => some group
  | _ => none

def DirectoryChange.grant? : DirectoryChange → Option UserGrantSnapshot
  | .setGrant grant => some grant
  | _ => none

/-- The rule slot a change writes, and the rule it puts there. -/
def ruleWrite (e : JSString × DirectoryChange) : Option ((RuleType × JSString) × Option AclRuleDoc) :=
  match e.2 with
  | .setRule rule => some ((rule.type, rule.ruleId), some rule)
  | .removeRule ruleId ruleType => some ((ruleType, ruleId), none)
  | _ => none

/-- The witness key a change writes, and the witness it puts there. -/
def witnessWrite (e : JSString × DirectoryChange) : Option (JSString × Option TrustedWitnessDoc) :=
  match e.2 with
  | .setWitness witness => some (witness.witnessPublicKey, some witness)
  | .removeWitness witnessPublicKey => some (witnessPublicKey, none)
  | _ => none

variable (l : LatestChanges)

/-- Some current group document names `name`. -/
def GroupNamed (name : JSString) : Prop := ∃ docId g, (docId, .setGroup g) ∈ l ∧ g.name = name

/-- Some current group document names `name` and lists `member`. -/
def GroupMember (name member : JSString) : Prop :=
  ∃ docId g, (docId, .setGroup g) ∈ l ∧ g.name = name ∧ member ∈ g.memberHashes

/-- The encryption key that stands beside a signing key. -/
def UserGrantSnapshot.encryptionKeyOf (grant : UserGrantSnapshot) (signingKey : JSString) : JSString :=
  (grant.encryptionKeys[grant.signingKeys.idxOf signingKey]?).getD ""

/-- **The union of the group documents of one name**, absent when there is none. -/
def IsGroup (name : JSString) : Option GroupSnapshot → Prop
  | none => ¬ GroupNamed l name
  | some group => GroupNamed l name ∧ group.name = name ∧
      ∀ member, member ∈ group.memberHashes ↔ GroupMember l name member

/-- Some current grant document is of the user. -/
def UserGranted (usernameHash : JSString) : Prop :=
  ∃ docId g, (docId, .setGrant g) ∈ l ∧ g.usernameHash = usernameHash

/-- **The union of the grant documents of one user**, absent when there is none. -/
def IsUser (usernameHash : JSString) : Option UserGrantSnapshot → Prop
  | none => ¬ UserGranted l usernameHash
  | some user => UserGranted l usernameHash ∧ user.usernameHash = usernameHash ∧
      (∀ key, key ∈ user.signingKeys ↔ ∃ docId g, (docId, .setGrant g) ∈ l ∧
        g.usernameHash = usernameHash ∧ key ∈ g.signingKeys) ∧
      (∀ docId g, (docId, .setGrant g) ∈ l → g.usernameHash = usernameHash →
        ∀ key ∈ g.signingKeys, user.encryptionKeyOf key = g.encryptionKeyOf key) ∧
      (∀ key, key ∈ user.wipeRequestedSigningKeys ↔ ∃ docId g, (docId, .setGrant g) ∈ l ∧
        g.usernameHash = usernameHash ∧ key ∈ g.wipeRequestedSigningKeys) ∧
      (user.active = true ↔ user.signingKeys ≠ [])

/-- **The tables say what the latest revisions say.** -/
structure Reflects (state : DirectoryState τ) : Prop where
  group : ∀ name, IsGroup l name (state.groupsByName.get? name)
  user : ∀ usernameHash, IsUser l usernameHash (state.usersByHash.get? usernameHash)
  signingKey : ∀ key user, state.bySigningKey.get? key = some user ↔
    ∃ usernameHash, state.usersByHash.get? usernameHash = some user ∧ key ∈ user.signingKeys
  /-- A rule is listed if it is the last word on its type and id. -/
  rule : ∀ type rule, rule ∈ (state.rulesByType.get? type).getD [] ↔
    lastWrite ruleWrite l (type, rule.ruleId) = some rule
  ruleOfDocument : ∀ type, ∀ rule ∈ (state.rulesByType.get? type).getD [],
    rule.type = type ∧ ∃ docId, (docId, .setRule rule) ∈ l
  ruleOnce : ∀ type, (((state.rulesByType.get? type).getD []).map fun r => r.ruleId).Nodup
  /-- A rule id stands under one rule type. -/
  ruleOneType : ∀ type type', ∀ rule ∈ (state.rulesByType.get? type).getD [],
    ∀ rule' ∈ (state.rulesByType.get? type').getD [], rule.ruleId = rule'.ruleId → type = type'
  witness : ∀ key, state.trustedWitnessKeys.get? key = lastWrite witnessWrite l key
  witnessOfDocument : ∀ key witness, state.trustedWitnessKeys.get? key = some witness →
    witness.witnessPublicKey = key ∧ ∃ docId, (docId, .setWitness witness) ∈ l

/-- **A revision supersedes its document's earlier one in place**: it takes back all that the earlier
one put into the tables, or what it leaves there stands there anyway. -/
structure InPlace (docId : JSString) (change : DirectoryChange) : Prop where
  /-- A grant is superseded by a grant or its removal. -/
  grant : ∀ g, (docId, .setGrant g) ∈ l → change.grant?.isSome ∨ change = .removeGrant
  /-- A group is superseded by a group or its removal… -/
  group : ∀ g, (docId, .setGroup g) ∈ l → change.group?.isSome ∨ change = .removeGroup
  /-- …of the same name, or one whose members other documents list too. -/
  groupName : ∀ g g', (docId, .setGroup g) ∈ l → change = .setGroup g' → g'.name ≠ g.name →
    GroupNamed (others l docId) g.name ∧ ∀ m ∈ g.memberHashes, GroupMember (others l docId) g.name m
  /-- The rule slots it does not write do not rest on its document. -/
  rule : ∀ slot, (∀ v, ruleWrite (docId, change) ≠ some (slot, v)) →
    lastWrite ruleWrite (others l docId) slot = lastWrite ruleWrite l slot
  /-- No rule of its id stands under another type. -/
  ruleType : ∀ rule, change = .setRule rule → ∀ type ≠ rule.type,
    lastWrite ruleWrite l (type, rule.ruleId) = none
  /-- The witness keys it does not write do not rest on its document. -/
  witness : ∀ key, (∀ v, witnessWrite (docId, change) ≠ some (key, v)) →
    lastWrite witnessWrite (others l docId) key = lastWrite witnessWrite l key
  /-- Documents that grant a signing key agree on its user and its encryption key. -/
  agree : ∀ g, change = .setGrant g → ∀ docId' g', (docId', .setGrant g') ∈ others l docId →
    ∀ key ∈ g.signingKeys, key ∈ g'.signingKeys →
      g'.usernameHash = g.usernameHash ∧ g'.encryptionKeyOf key = g.encryptionKeyOf key

variable {l}

@[simp] theorem group?_eq_some {change : DirectoryChange} {g : GroupSnapshot} :
    change.group? = some g ↔ change = .setGroup g := by
  cases change <;> simp [DirectoryChange.group?]

@[simp] theorem grant?_eq_some {change : DirectoryChange} {g : UserGrantSnapshot} :
    change.grant? = some g ↔ change = .setGrant g := by
  cases change <;> simp [DirectoryChange.grant?]

theorem get?_setOrDelete {κ ν : Type*} [DecidableEq κ] (m : LinkedMap κ ν) (k k' : κ) (v : Option ν) :
    (setOrDelete m k v).get? k' = if k' = k then v else m.get? k' := by
  cases v with
  | none => exact LinkedMap.get?_delete m k k'
  | some v => exact LinkedMap.get?_set m k v k'

/-! ## Same tables -/

/-- Two snapshots of one user, up to the order of the keys. -/
structure SameUser (user user' : UserGrantSnapshot) : Prop where
  usernameHash : user.usernameHash = user'.usernameHash
  signingKeys : ∀ key, key ∈ user.signingKeys ↔ key ∈ user'.signingKeys
  encryptionKeyOf : ∀ key ∈ user.signingKeys, user.encryptionKeyOf key = user'.encryptionKeyOf key
  wipeRequestedSigningKeys :
    ∀ key, key ∈ user.wipeRequestedSigningKeys ↔ key ∈ user'.wipeRequestedSigningKeys
  active : user.active = user'.active

/-- Two snapshots of one group, up to the order of the members. -/
structure SameGroup (group group' : GroupSnapshot) : Prop where
  name : group.name = group'.name
  memberHashes : ∀ member, member ∈ group.memberHashes ↔ member ∈ group'.memberHashes

/-- Two states with the same tables, up to the order of what they list. -/
structure SameTables (state state' : DirectoryState τ) : Prop where
  group : ∀ name, Option.Rel SameGroup (state.groupsByName.get? name) (state'.groupsByName.get? name)
  user : ∀ hash, Option.Rel SameUser (state.usersByHash.get? hash) (state'.usersByHash.get? hash)
  signingKey : ∀ key,
    Option.Rel SameUser (state.bySigningKey.get? key) (state'.bySigningKey.get? key)
  rule : ∀ type rule, rule ∈ (state.rulesByType.get? type).getD []
    ↔ rule ∈ (state'.rulesByType.get? type).getD []
  witness : ∀ key, state.trustedWitnessKeys.get? key = state'.trustedWitnessKeys.get? key

theorem IsGroup.same {name : JSString} {group group' : Option GroupSnapshot}
    (h : IsGroup l name group) (h' : IsGroup l name group') : Option.Rel SameGroup group group' := by
  rcases group with _ | group <;> rcases group' with _ | group'
  · exact .none
  · exact absurd h'.1 h
  · exact absurd h.1 h'
  · exact .some ⟨h.2.1.trans h'.2.1.symm, fun m => (h.2.2 m).trans (h'.2.2 m).symm⟩

theorem IsUser.same {hash : JSString} {user user' : Option UserGrantSnapshot}
    (h : IsUser l hash user) (h' : IsUser l hash user') : Option.Rel SameUser user user' := by
  rcases user with _ | user <;> rcases user' with _ | user'
  · exact .none
  · exact absurd h'.1 h
  · exact absurd h.1 h'
  · obtain ⟨-, hhash, hkeys, henc, hwipe, hactive⟩ := h
    obtain ⟨-, hhash', hkeys', henc', hwipe', hactive'⟩ := h'
    have hsame : ∀ key, key ∈ user.signingKeys ↔ key ∈ user'.signingKeys := fun key =>
      (hkeys key).trans (hkeys' key).symm
    refine .some ⟨hhash.trans hhash'.symm, hsame, fun key hkey => ?_, fun key =>
      (hwipe key).trans (hwipe' key).symm, ?_⟩
    · obtain ⟨docId, g, hg, hgh, hgkey⟩ := (hkeys key).mp hkey
      rw [henc docId g hg hgh key hgkey, henc' docId g hg hgh key hgkey]
    · rw [Bool.eq_iff_iff, hactive, hactive', ne_eq, ne_eq, List.eq_nil_iff_forall_not_mem,
        List.eq_nil_iff_forall_not_mem]
      simp only [hsame]

/-- **The latest revisions determine the tables.** -/
theorem Reflects.sameTables {state state' : DirectoryState τ} (h : Reflects l state)
    (h' : Reflects l state') : SameTables state state' where
  group name := (h.group name).same (h'.group name)
  user hash := (h.user hash).same (h'.user hash)
  signingKey key := by
    have hto : ∀ {s s' : DirectoryState τ}, Reflects l s → Reflects l s' → ∀ u,
        s.bySigningKey.get? key = some u →
          ∃ u', s'.bySigningKey.get? key = some u' ∧ SameUser u u' := by
      intro s s' hs hs' u hu
      obtain ⟨hash, hget, hkey⟩ := (hs.signingKey key u).mp hu
      have hrel := (hs.user hash).same (hs'.user hash)
      rw [hget] at hrel
      rcases hget' : s'.usersByHash.get? hash with _ | u'
      · rw [hget'] at hrel
        cases hrel
      · rw [hget'] at hrel
        obtain ⟨hsame⟩ := hrel
        exact ⟨u', (hs'.signingKey key u').mpr ⟨hash, hget', (hsame.signingKeys key).mp hkey⟩, hsame⟩
    rcases hu : state.bySigningKey.get? key with _ | u
    · rcases hu' : state'.bySigningKey.get? key with _ | u'
      · exact .none
      · obtain ⟨u, hnone, -⟩ := hto h' h u' hu'
        rw [hu] at hnone
        cases hnone
    · obtain ⟨u', hu', hsame⟩ := hto h h' u hu
      rw [hu']
      exact .some hsame
  rule type rule := (h.rule type rule).trans (h'.rule type rule).symm
  witness key := (h.witness key).trans (h'.witness key).symm

end MindooDB
