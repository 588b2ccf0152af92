import MindooDB.Directory.Projection

/-!
# Directory/Change — what a revision does to the tables

`projectDirectoryRevision` reads a revision and calls one operation of the builder.  Here the two
are separated: `DirectoryRevision.change` says which operation a revision asks for, and
`tables_projectDirectoryRevision` that projecting it performs just that one.
-/

namespace MindooDB

open Json DirectoryStateChainBuilder

variable {τ : Type*} [LinearOrder τ]

/-- The collections of the head that grants, groups, rules and witnesses end up in, and the
per-document contributions the builder keeps beside them. -/
structure DirectoryTables where
  groupContributions : LinkedMap JSString GroupSnapshot
  groupsByName : LinkedMap JSString GroupSnapshot
  grantContributions : LinkedMap JSString UserGrantSnapshot
  usersByHash : LinkedMap JSString UserGrantSnapshot
  bySigningKey : LinkedMap JSString UserGrantSnapshot
  rulesByType : LinkedMap RuleType (List AclRuleDoc)
  trustedWitnessKeys : LinkedMap JSString TrustedWitnessDoc

def DirectoryStateChainBuilder.tables (b : DirectoryStateChainBuilder τ) : DirectoryTables where
  groupContributions := b.groupContributions
  groupsByName := b.head.state.groupsByName
  grantContributions := b.grantContributions
  usersByHash := b.head.state.usersByHash
  bySigningKey := b.head.state.bySigningKey
  rulesByType := b.head.state.rulesByType
  trustedWitnessKeys := b.head.state.trustedWitnessKeys

/-- What a revision asks for.  Policies, and the documents that are not projected, leave the tables
as they are. -/
inductive DirectoryChange where
  | setGrant (grant : UserGrantSnapshot)
  | removeGrant
  | setGroup (group : GroupSnapshot)
  | removeGroup
  | setRule (rule : AclRuleDoc)
  | removeRule (ruleId : JSString) (ruleType : RuleType)
  | setWitness (witness : TrustedWitnessDoc)
  | removeWitness (witnessPublicKey : JSString)
  | other

/-- The change an access control document asks for. -/
def accessControlChange (data : JsonObject) (deleted : Bool) : DirectoryChange :=
  let type := data.field "type"
  if isString type "defaultpolicy" then .other
  else if isString type "keydistribution" then .other
  else if isString type "appdistribution" then .other
  else if isString type "syncsetuppolicy" then .other
  else if isString type "dochistorypurge" then .other
  else
    match isString type "trustedwitness", asString? (data.field "witnessPublicKey") with
    | true, some witnessPublicKey =>
      if deleted then .removeWitness witnessPublicKey
      else .setWitness ⟨witnessPublicKey, asString? (data.field "serverUrl")⟩
    | _, _ =>
      match (asString? type).bind RuleType.ofName?, asString? (data.field "ruleId") with
      | some ruleType, some ruleId =>
        if deleted then .removeRule ruleId ruleType else .setRule (parseRuleDoc data ruleType ruleId)
      | _, _ => .other

/-- **The change a revision asks for.** -/
def DirectoryRevision.change (normalizeGroupName : JSString → JSString)
    (input : DirectoryRevision τ) : DirectoryChange :=
  let data := input.data
  let form := data.field "form"
  let type := data.field "type"
  if isString form "useroperation" && isString type "grantaccess" then
    if input.deleted then .removeGrant
    else
      match asString? (data.field "username_hash") with
      | some usernameHash => .setGrant (grantSnapshot data usernameHash)
      | none => .other
  else if isString form "accesscontrol" then accessControlChange data input.deleted
  else
    match isString form "group" && isString type "group",
        asString? (data.field "groupName") with
    | true, some groupName =>
      if input.deleted then .removeGroup
      else
        .setGroup ⟨normalizeGroupName groupName,
          (stringItems? (data.field "members_hashes")).getD []⟩
    | _, _ => .other

/-- Perform a change. -/
def DirectoryChange.applyTo (change : DirectoryChange) (b : DirectoryStateChainBuilder τ)
    (docId : JSString) (t : τ) : DirectoryStateChainBuilder τ :=
  match change with
  | .setGrant grant => b.applyGrantDoc docId grant t
  | .removeGrant => b.removeGrantDoc docId t
  | .setGroup group => b.applyGroupDoc docId group.name group.memberHashes t
  | .removeGroup => b.removeGroupDoc docId t
  | .setRule rule => b.applyRule rule t
  | .removeRule ruleId ruleType => b.removeRule ruleId ruleType t
  | .setWitness witness => b.applyTrustedWitness witness t
  | .removeWitness witnessPublicKey => b.removeTrustedWitness witnessPublicKey t
  | .other => b

theorem tables_projectAccessControlDoc (b : DirectoryStateChainBuilder τ) (docId : JSString)
    (data : JsonObject) (deleted : Bool) (t : τ) :
    (projectAccessControlDoc b docId data deleted t).tables
      = ((accessControlChange data deleted).applyTo b docId t).tables := by
  unfold projectAccessControlDoc accessControlChange
  simp only
  split
  · -- A policy moves no table.
    split
    · rfl
    · split
      · rfl
      · split <;> rfl
  · iterate 4 (split; · rfl)
    generalize isString (data.field "type") "trustedwitness" = trustedWitness
    generalize asString? (data.field "witnessPublicKey") = witnessPublicKey
    generalize (asString? (data.field "type")).bind RuleType.ofName? = ruleType
    generalize asString? (data.field "ruleId") = ruleId
    cases trustedWitness <;> cases witnessPublicKey <;> cases ruleType <;> cases ruleId <;>
      cases deleted <;> rfl

/-- **Projecting a revision performs the change it asks for.** -/
theorem tables_projectDirectoryRevision (normalizeGroupName : JSString → JSString)
    (b : DirectoryStateChainBuilder τ) (input : DirectoryRevision τ) :
    (projectDirectoryRevision normalizeGroupName b input).tables
      = ((input.change normalizeGroupName).applyTo b input.docId input.trustedTime).tables := by
  unfold projectDirectoryRevision DirectoryRevision.change
  simp only
  split
  · split
    · rfl
    · cases asString? (input.data.field "username_hash") <;> rfl
  · split
    · exact tables_projectAccessControlDoc b input.docId input.data input.deleted _
    · generalize (isString (input.data.field "form") "group"
        && isString (input.data.field "type") "group") = isGroup
      cases isGroup <;> cases asString? (input.data.field "groupName") <;>
        cases input.deleted <;> rfl

/-! ## The tables after each operation -/

section Tables

variable (b : DirectoryStateChainBuilder τ) (t : τ)

theorem tables_fresh [OrderBot τ] :
    (fresh : DirectoryStateChainBuilder τ).tables = ⟨∅, ∅, ∅, ∅, ∅, ∅, ∅⟩ := rfl

theorem tables_applyGroupDoc (docId name : JSString) (memberHashes : List JSString) :
    (b.applyGroupDoc docId name memberHashes t).tables =
      { b.tables with
        groupContributions := b.tables.groupContributions.set docId ⟨name, memberHashes⟩
        groupsByName := setOrDelete b.tables.groupsByName name
          (groupUnion (b.tables.groupContributions.set docId ⟨name, memberHashes⟩) name) } := rfl

variable {docId : JSString} {grant : UserGrantSnapshot}

theorem tables_removeGroupDoc_of_absent (h : b.tables.groupContributions.get? docId = none) :
    (b.removeGroupDoc docId t).tables = b.tables := by
  change b.groupContributions.get? docId = none at h
  rw [removeGroupDoc, h]

theorem tables_removeGroupDoc {group : GroupSnapshot}
    (h : b.tables.groupContributions.get? docId = some group) :
    (b.removeGroupDoc docId t).tables =
      { b.tables with
        groupContributions := b.tables.groupContributions.delete docId
        groupsByName := setOrDelete b.tables.groupsByName group.name
          (groupUnion (b.tables.groupContributions.delete docId) group.name) } := by
  change b.groupContributions.get? docId = some group at h
  rw [removeGroupDoc, h]
  rfl

/-- The users of a table of contributions, `usernameHash` brought up to date. -/
def recomputed (contributions users : LinkedMap JSString UserGrantSnapshot)
    (usernameHash : JSString) : LinkedMap JSString UserGrantSnapshot :=
  setOrDelete users usernameHash (userUnion contributions usernameHash)

theorem tables_applyGrantDoc
    (h : ∀ p, b.tables.grantContributions.get? docId = some p → p.usernameHash = grant.usernameHash) :
    (b.applyGrantDoc docId grant t).tables =
      { b.tables with
        grantContributions := b.tables.grantContributions.set docId grant
        usersByHash := recomputed (b.tables.grantContributions.set docId grant)
          b.tables.usersByHash grant.usernameHash
        bySigningKey := buildBySigningKey (recomputed (b.tables.grantContributions.set docId grant)
          b.tables.usersByHash grant.usernameHash) } := by
  change ∀ p, b.grantContributions.get? docId = some p → _ at h
  unfold applyGrantDoc
  rcases hp : b.grantContributions.get? docId with _ | p
  · rfl
  · simp only [if_neg (not_not.mpr (h p hp))]
    rfl

/-- A grant that moves to another user brings both up to date. -/
theorem tables_applyGrantDoc_of_moved {p : UserGrantSnapshot}
    (h : b.tables.grantContributions.get? docId = some p)
    (hmoved : p.usernameHash ≠ grant.usernameHash) :
    (b.applyGrantDoc docId grant t).tables =
      { b.tables with
        grantContributions := b.tables.grantContributions.set docId grant
        usersByHash := recomputed (b.tables.grantContributions.set docId grant)
          (recomputed (b.tables.grantContributions.set docId grant) b.tables.usersByHash
            p.usernameHash) grant.usernameHash
        bySigningKey := buildBySigningKey (recomputed (b.tables.grantContributions.set docId grant)
          (recomputed (b.tables.grantContributions.set docId grant) b.tables.usersByHash
            p.usernameHash) grant.usernameHash) } := by
  change b.grantContributions.get? docId = some p at h
  unfold applyGrantDoc
  simp only [h, if_pos hmoved]
  rfl

theorem tables_removeGrantDoc_of_absent (h : b.tables.grantContributions.get? docId = none) :
    (b.removeGrantDoc docId t).tables = b.tables := by
  change b.grantContributions.get? docId = none at h
  rw [removeGrantDoc, h]

theorem tables_removeGrantDoc (h : b.tables.grantContributions.get? docId = some grant) :
    (b.removeGrantDoc docId t).tables =
      { b.tables with
        grantContributions := b.tables.grantContributions.delete docId
        usersByHash := recomputed (b.tables.grantContributions.delete docId) b.tables.usersByHash
          grant.usernameHash
        bySigningKey := buildBySigningKey
          (recomputed (b.tables.grantContributions.delete docId) b.tables.usersByHash
            grant.usernameHash) } := by
  change b.grantContributions.get? docId = some grant at h
  rw [removeGrantDoc, h]
  rfl

/-! Grants move no table but the grants', groups none but the groups'. -/

theorem exists_tables_applyGrantDoc (docId : JSString) (grant : UserGrantSnapshot) :
    ∃ contributions users keys, (b.applyGrantDoc docId grant t).tables =
      { b.tables with
        grantContributions := contributions, usersByHash := users, bySigningKey := keys } := by
  rcases hold : b.tables.grantContributions.get? docId with _ | p
  · exact ⟨_, _, _, tables_applyGrantDoc b t (by simp [hold])⟩
  · by_cases hhash : p.usernameHash = grant.usernameHash
    · exact ⟨_, _, _, tables_applyGrantDoc b t (by simp [hold, hhash])⟩
    · exact ⟨_, _, _, tables_applyGrantDoc_of_moved b t hold hhash⟩

theorem exists_tables_removeGrantDoc (docId : JSString) :
    ∃ contributions users keys, (b.removeGrantDoc docId t).tables =
      { b.tables with
        grantContributions := contributions, usersByHash := users, bySigningKey := keys } := by
  rcases hold : b.tables.grantContributions.get? docId with _ | p
  · exact ⟨_, _, _, tables_removeGrantDoc_of_absent b t hold⟩
  · exact ⟨_, _, _, tables_removeGrantDoc b t hold⟩

theorem exists_tables_removeGroupDoc (docId : JSString) :
    ∃ contributions groups, (b.removeGroupDoc docId t).tables =
      { b.tables with groupContributions := contributions, groupsByName := groups } := by
  rcases hold : b.tables.groupContributions.get? docId with _ | p
  · exact ⟨_, _, tables_removeGroupDoc_of_absent b t hold⟩
  · exact ⟨_, _, tables_removeGroupDoc b t hold⟩

end Tables

end MindooDB
