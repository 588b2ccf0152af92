import MindooDB.Lib.Json
import MindooDB.Lib.Utf8
import MindooDB.Lib.LinkedMap

/-!
# Directory/Types — the documents of the directory

`core/accesscontrol/types.ts`, as far as the directory projection reads it, and `grantKeys.ts`.  The
constant `form` and `type` fields of the parsed documents are left out.

A grant lists its active devices in `userKeyPairs`; documents older than that list carry parallel
arrays, or single keys.  The most specific form present wins, also when it is empty.
-/

namespace MindooDB

inductive RuleType where
  | docCreate
  | docChange
  | docDelete
  | docUndelete
  | docSnapshot
  | docRead
  deriving DecidableEq, Repr

/-- The rule type a `type` field names, if it is one of `RULE_TYPES`. -/
def RuleType.ofName? (name : JSString) : Option RuleType :=
  if name = "doc_create" then some .docCreate
  else if name = "doc_change" then some .docChange
  else if name = "doc_delete" then some .docDelete
  else if name = "doc_undelete" then some .docUndelete
  else if name = "doc_snapshot" then some .docSnapshot
  else if name = "doc_read" then some .docRead
  else none

inductive DatabaseCreationPolicy where
  | openToAll
  | directoryRestricted
  deriving DecidableEq

/-- The tenant's default policy, or the policy of one database. -/
structure DefaultAccessPolicyDoc where
  disableAllAccessChecksAndPolicies : Option Bool
  denyDocCreate : Option Bool
  denyDocChange : Option Bool
  denyDocDelete : Option Bool
  denyDocUndelete : Option Bool
  denyDocSnapshot : Option Bool
  denyDocRead : Option Bool
  defaultCreateKeyId : Option JSString
  databaseCreationPolicy : Option DatabaseCreationPolicy
  allowedDbIds : Option (List JSString)
  requireMetadataSignatureSince : Option ℚ

inductive RuleAction where
  | allow
  | deny
  deriving DecidableEq

/-- An access-control rule.  A `withfields` clause is kept as the object it was written as. -/
structure AclRuleDoc where
  type : RuleType
  ruleId : JSString
  description : Option JSString
  dbid : JSString
  withfields : Option (List JsonObject)
  usersHashes : List JSString
  usersEncrypted : JSString
  action : RuleAction

structure TrustedWitnessDoc where
  witnessPublicKey : JSString
  serverUrl : Option JSString
  deriving DecidableEq

/-! ## Document ids -/

def aclDefaultPolicyDocId : JSString := "acl_defaultpolicy"

def aclDbPolicyPrefix : JSString := "acl_dbpolicy_"

/-- The white space that `parseInt` skips, which is that of `\s`. -/
def isWhiteSpace (unit : ℕ) : Bool :=
  unit ∈ [0x09, 0x0A, 0x0B, 0x0C, 0x0D, 0x20, 0xA0, 0x1680, 0x2028, 0x2029, 0x202F, 0x205F, 0x3000,
    0xFEFF] || (0x2000 ≤ unit && unit ≤ 0x200A)

/-- `key.replace(/\s+/g, "")`. -/
def stripWhiteSpace (pem : JSString) : JSString :=
  ⟨pem.units.filter fun unit => !isWhiteSpace unit.val⟩

def hexDigit? (unit : ℕ) : Option ℕ :=
  if 0x30 ≤ unit ∧ unit ≤ 0x39 then some (unit - 0x30)
  else if 0x61 ≤ unit ∧ unit ≤ 0x66 then some (unit - 0x61 + 10)
  else if 0x41 ≤ unit ∧ unit ≤ 0x46 then some (unit - 0x41 + 10)
  else none

/-- The value of the longest prefix of hex digits; no digit at all is `NaN`, which a byte array
stores as zero. -/
def hexPrefix : List ℕ → ℕ → ℕ
  | [], n => n
  | unit :: rest, n =>
    match hexDigit? unit with
    | some d => hexPrefix rest (16 * n + d)
    | none => n

/-- `parseInt(s, 16)` as a byte array stores it. -/
def parseHexByte (units : List ℕ) : ℕ :=
  let trimmed := units.dropWhile isWhiteSpace
  let (negative, digits) := match trimmed with
    | 0x2D :: rest => (true, rest)
    | 0x2B :: rest => (false, rest)
    | rest => (false, rest)
  let digits := match digits with
    | 0x30 :: 0x78 :: rest => rest
    | 0x30 :: 0x58 :: rest => rest
    | rest => rest
  let n : ℤ := hexPrefix digits 0
  ((if negative then -n else n) % 256).toNat

/-- The bytes of an encoded component: `_` and two characters are a hex byte, anything else is
itself. -/
def aclIdBytes : List ℕ → List ℕ
  | [] => []
  | 0x5F :: a :: b :: rest => parseHexByte [a, b] :: aclIdBytes rest
  | [0x5F, a] => [parseHexByte [a]]
  | [0x5F] => [parseHexByte []]
  | unit :: rest => unit % 256 :: aclIdBytes rest

def decodeAclIdComponent (encoded : JSString) : JSString :=
  Utf8.decode (aclIdBytes (encoded.units.map Fin.val))

end MindooDB

namespace MindooDB

/-- One device of a user. -/
structure GrantKeyPair where
  signingPublicKey : JSString
  encryptionPublicKey : JSString
  label : Option JSString := none
  addedAt : Option JsNumber := none
  joinResponseWrapped : Option JSString := none
  revoked : Bool := false
  revokedAt : Option JsNumber := none
  deriving DecidableEq

def asStringArray (value : Option Json) : List JSString :=
  ((Json.stringItems? value).getD []).filter fun s => !s.isEmpty

/-- A string that is not empty. -/
def asScalarString (value : Option Json) : Option JSString :=
  (Json.asString? value).filter fun s => !s.isEmpty

def asLabel (value : Option Json) : Option JSString := asScalarString value

/-- The strings of a legacy array, each once, or the one of the legacy scalar. -/
def legacyKeys (data : JsonObject) (arrayField scalarField : JSString) : List JSString :=
  if (Json.asArray? (data.field arrayField)).isSome then
    (LinkedSet.ofList (asStringArray (data.field arrayField))).toList
  else (asScalarString (data.field scalarField)).toList

def legacySigningKeys (data : JsonObject) : List JSString :=
  legacyKeys data "userSigningPublicKeys" "userSigningPublicKey"

def legacyEncryptionKeys (data : JsonObject) : List JSString :=
  legacyKeys data "userEncryptionPublicKeys" "userEncryptionPublicKey"

/-- One entry of a key list, unless its signing key is missing or was seen. -/
def parsePairEntry (markRevoked : Bool) (pairs : List GrantKeyPair) (entry : Json) :
    List GrantKeyPair :=
  match Json.asObject? (some entry) with
  | none => pairs
  | some rec =>
    match asScalarString (rec.field "signingPublicKey") with
    | none => pairs
    | some signingPublicKey =>
      if pairs.any fun pair => pair.signingPublicKey = signingPublicKey then pairs
      else
        pairs ++ [{
          signingPublicKey
          encryptionPublicKey := (asScalarString (rec.field "encryptionPublicKey")).getD ""
          label := asLabel (rec.field "label")
          addedAt := Json.asNumber? (rec.field "addedAt")
          joinResponseWrapped := asScalarString (rec.field "joinResponseWrapped")
          revoked := markRevoked
          revokedAt := if markRevoked then Json.asNumber? (rec.field "revokedAt") else none }]

/-- A list of key pairs, without repeats. -/
def parsePairEntries (value : Option Json) (markRevoked : Bool) : List GrantKeyPair :=
  ((Json.asArray? value).getD []).foldl (parsePairEntry markRevoked) []

/-- Whether the document uses the canonical lists. -/
def hasCanonicalKeyLists (data : JsonObject) : Bool :=
  (Json.asArray? (data.field "userKeyPairs")).isSome ||
    (Json.asArray? (data.field "revokedUserKeyPairs")).isSome

def canonicalActivePairs (data : JsonObject) : List GrantKeyPair :=
  parsePairEntries (data.field "userKeyPairs") false

/-- The legacy signing keys, paired with the encryption keys by index. -/
def legacyKeyPairs (data : JsonObject) : List GrantKeyPair :=
  let encryption := legacyEncryptionKeys data
  (legacySigningKeys data).zipIdx.foldl (fun pairs (signingPublicKey, index) =>
    if pairs.any fun pair => pair.signingPublicKey = signingPublicKey then pairs
    else pairs ++ [{ signingPublicKey, encryptionPublicKey := encryption[index]?.getD "" }]) []

/-- The device key pairs that grant access. -/
def extractActiveKeyPairs (data : JsonObject) : List GrantKeyPair :=
  if hasCanonicalKeyLists data then canonicalActivePairs data else legacyKeyPairs data

def extractWipeRequestedSigningKeys (data : JsonObject) : List JSString :=
  (LinkedSet.ofList (asStringArray (data.field "wipeRequestedForSigningKeys"))).toList

end MindooDB
