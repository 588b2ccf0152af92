import MindooDB.Directory.StateNode

/-!
# Directory/Projection — from a document revision to a change of the chain

`core/accesscontrol/directoryProjection.ts`.  Called once per stored revision, in the order the
chain is built in.  `normalizeGroupName` comes with the revision there; here it is a parameter.
-/

namespace MindooDB

open Json

/-! ## Parsing -/

/-- A policy, as its document has it. -/
def parsePolicyDoc (data : JsonObject) : DefaultAccessPolicyDoc where
  disableAllAccessChecksAndPolicies := asBool? (data.field "disableAllAccessChecksAndPolicies")
  denyDocCreate := asBool? (data.field "denyDocCreate")
  denyDocChange := asBool? (data.field "denyDocChange")
  denyDocDelete := asBool? (data.field "denyDocDelete")
  denyDocUndelete := asBool? (data.field "denyDocUndelete")
  denyDocSnapshot := asBool? (data.field "denyDocSnapshot")
  denyDocRead := asBool? (data.field "denyDocRead")
  defaultCreateKeyId := asString? (data.field "defaultCreateKeyId")
  databaseCreationPolicy :=
    if isString (data.field "databaseCreationPolicy") "directory-restricted" then
      some .directoryRestricted
    else if isString (data.field "databaseCreationPolicy") "open" then some .openToAll
    else none
  allowedDbIds := stringItems? (data.field "allowedDbIds")
  requireMetadataSignatureSince := asFiniteNumber? (data.field "requireMetadataSignatureSince")

/-- The clauses of a rule: the objects with a string `key`. -/
def parseWithFields (value : Option Json) : Option (List JsonObject) :=
  (asArray? value).map fun items => items.filterMap fun item =>
    (asObject? (some item)).filter fun clause => (asString? (clause.field "key")).isSome

/-- `ruleId` is the `data.ruleId` the caller found to be a string. -/
def parseRuleDoc (data : JsonObject) (ruleType : RuleType) (ruleId : JSString) : AclRuleDoc where
  type := ruleType
  ruleId := ruleId
  description := asString? (data.field "description")
  dbid := (asString? (data.field "dbid")).getD "*"
  withfields := parseWithFields (data.field "withfields")
  usersHashes := (stringItems? (data.field "users_hashes")).getD []
  usersEncrypted := (asString? (data.field "users_encrypted")).getD ""
  action := if isString (data.field "action") "deny" then .deny else .allow

/-- The grant a `grantaccess` document of `usernameHash` makes. -/
def grantSnapshot (data : JsonObject) (usernameHash : JSString) : UserGrantSnapshot :=
  let pairs := extractActiveKeyPairs data
  let signingKeys := pairs.map fun pair => pair.signingPublicKey
  { usernameHash
    signingKeys
    encryptionKeys := pairs.map fun pair => pair.encryptionPublicKey
    wipeRequestedSigningKeys := extractWipeRequestedSigningKeys data
    active := signingKeys.length > 0 }

/-! ## Projecting -/

variable {τ : Type*} [LinearOrder τ]

/-- A revision of a directory document. -/
structure DirectoryRevision (τ : Type*) where
  docId : JSString
  data : JsonObject
  deleted : Bool
  trustedTime : τ

open DirectoryStateChainBuilder in
/-- `projectAccessControlDoc`: policies, trusted witnesses and rules.  The other types of access
control documents are not projected. -/
def projectAccessControlDoc (builder : DirectoryStateChainBuilder τ) (docId : JSString)
    (data : JsonObject) (deleted : Bool) (trustedTime : τ) : DirectoryStateChainBuilder τ :=
  let type := data.field "type"
  if isString type "defaultpolicy" then
    if deleted then builder
    else
      let policy := parsePolicyDoc data
      if docId = aclDefaultPolicyDocId then builder.applyDefaultPolicy policy trustedTime
      else if docId.startsWith aclDbPolicyPrefix then
        builder.applyDbPolicy (decodeAclIdComponent (docId.drop aclDbPolicyPrefix.length)) policy
          trustedTime
      else builder
  else if isString type "keydistribution" then builder
  else if isString type "appdistribution" then builder
  else if isString type "syncsetuppolicy" then builder
  else if isString type "dochistorypurge" then builder
  else
    match isString type "trustedwitness", asString? (data.field "witnessPublicKey") with
    | true, some witnessPublicKey =>
      if deleted then builder.removeTrustedWitness witnessPublicKey trustedTime
      else
        builder.applyTrustedWitness
          ⟨witnessPublicKey, asString? (data.field "serverUrl")⟩ trustedTime
    | _, _ =>
      match (asString? type).bind RuleType.ofName?, asString? (data.field "ruleId") with
      | some ruleType, some ruleId =>
        if deleted then builder.removeRule ruleId ruleType trustedTime
        else builder.applyRule (parseRuleDoc data ruleType ruleId) trustedTime
      | _, _ => builder

/-- **Classify a revision and feed it into the chain.** -/
def projectDirectoryRevision (normalizeGroupName : JSString → JSString)
    (builder : DirectoryStateChainBuilder τ) (input : DirectoryRevision τ) :
    DirectoryStateChainBuilder τ :=
  let data := input.data
  let form := data.field "form"
  let type := data.field "type"
  if isString form "useroperation" && isString type "grantaccess" then
    if input.deleted then builder.removeGrantDoc input.docId input.trustedTime
    else
      match asString? (data.field "username_hash") with
      | some usernameHash =>
        builder.applyGrantDoc input.docId (grantSnapshot data usernameHash) input.trustedTime
      | none => builder
  else if isString form "accesscontrol" then
    projectAccessControlDoc builder input.docId data input.deleted input.trustedTime
  else
    match isString form "group" && isString type "group",
        asString? (data.field "groupName") with
    | true, some groupName =>
      let name := normalizeGroupName groupName
      if input.deleted then builder.removeGroupDoc input.docId input.trustedTime
      else
        let memberHashes := (stringItems? (data.field "members_hashes")).getD []
        builder.applyGroupDoc input.docId name memberHashes input.trustedTime
    | _, _ => builder

/-! ## Projecting carries the chain on -/

open DirectoryStateChainBuilder

theorem extends_projectAccessControlDoc (builder : DirectoryStateChainBuilder τ) (docId : JSString)
    (data : JsonObject) (deleted : Bool) (t : τ) :
    Extends t builder (projectAccessControlDoc builder docId data deleted t) := by
  unfold projectAccessControlDoc
  simp only
  split
  · split
    · exact .refl t builder
    · split
      · exact extends_log_push builder t _ fun _ => rfl
      · split
        · exact extends_log_push builder t _ fun _ => rfl
        · exact .refl t builder
  · iterate 4 (split; · exact .refl t builder)
    split
    · split <;> exact extends_log_push builder t _ fun _ => rfl
    · split
      · split <;> exact extends_log_push builder t _ fun _ => rfl
      · exact .refl t builder

/-- **A projected revision carries the chain on** at its trusted time. -/
theorem extends_projectDirectoryRevision (normalizeGroupName : JSString → JSString)
    (builder : DirectoryStateChainBuilder τ) (input : DirectoryRevision τ) :
    Extends input.trustedTime builder
      (projectDirectoryRevision normalizeGroupName builder input) := by
  unfold projectDirectoryRevision
  simp only
  split
  · split
    · exact extends_removeGrantDoc builder input.trustedTime input.docId
    · split
      · exact extends_applyGrantDoc builder input.trustedTime input.docId _
      · exact .refl _ builder
  · split
    · exact extends_projectAccessControlDoc builder input.docId input.data input.deleted _
    · split
      · split
        · exact extends_removeGroupDoc builder input.trustedTime input.docId
        · exact (extends_recomputeGroup _ input.trustedTime _).of_head_eq rfl
      · exact .refl _ builder

end MindooDB
