import MindooDB.Lib.JSString

/-!
# Sealed/UserNames — the names of the people a document is sealed to

`core/userid/canonicalUsername.ts`: a name is a path of typed parts, `cn=Maya Chen/o=Acme`, which may
be abbreviated to `Maya Chen/Acme`.  The key of a person is the expanded name, its types in upper
case and its values in lower case.
-/

namespace JSString

/-- `\s`, which is also what `trim` removes. -/
def isSpace (unit : Fin 65536) : Bool :=
  unit.val ∈ [0x9, 0xA, 0xB, 0xC, 0xD, 0x20, 0xA0, 0x1680, 0x2028, 0x2029, 0x202F, 0x205F, 0x3000,
    0xFEFF] || (0x2000 ≤ unit.val && unit.val ≤ 0x200A)

/-- What `.` does not match. -/
def isLineTerminator (unit : Fin 65536) : Bool := unit.val ∈ [0xA, 0xD, 0x2028, 0x2029]

def trim (s : JSString) : JSString :=
  ⟨((s.units.dropWhile isSpace).reverse.dropWhile isSpace).reverse⟩

end JSString

namespace MindooDB.Sealed

/-- The functions of the language that read the Unicode tables. -/
structure UnicodeTables where
  normalizeNFKC : JSString → JSString
  toUpperCase : JSString → JSString
  toLowerCase : JSString → JSString

/-- The parts between slashes. -/
def splitNameParts (value : JSString) : List JSString :=
  ((value.split '/').map JSString.trim).filter fun part => !part.isEmpty

/-- `CANONICAL_PART_PATTERN`: the type and the value of a part, both trimmed. -/
def matchCanonicalPart (part : JSString) : Option (JSString × JSString) :=
  match part.units.findIdx? (· = 0x3D) with
  | none | some 0 => none
  | some n =>
    let value := (part.drop (n + 1)).trim
    if value.units.any JSString.isLineTerminator then none else some ((part.take n).trim, value)

def abbreviateCanonicalName (value : JSString) : JSString :=
  let parts := splitNameParts value
  let values := parts.map fun part =>
    (matchCanonicalPart part).bind fun m => if m.2.isEmpty then none else some m.2
  if parts.isEmpty || values.any Option.isNone then value.trim
  else JSString.join "/" values.reduceOption

def isCanonicalName (value : JSString) : Bool :=
  let parts := splitNameParts value.trim
  !parts.isEmpty && parts.all fun part =>
    (matchCanonicalPart part).any fun m => !m.1.isEmpty && !m.2.isEmpty

def expandAbbreviatedName (value : JSString) : JSString :=
  let normalized := value.trim
  let parts := splitNameParts normalized
  if isCanonicalName normalized || parts.length < 2 then normalized
  else JSString.join "/" (parts.zipIdx.map fun (part, index) =>
    if (matchCanonicalPart part).isSome then part
    else if index = 0 then "cn=" ++ part
    else if index = parts.length - 1 then "o=" ++ part
    else "ou=" ++ part)

namespace UnicodeTables

variable (unicode : UnicodeTables)

def normalizeCanonicalNameForComparison (value : JSString) : JSString :=
  unicode.toLowerCase (abbreviateCanonicalName value.trim).trim

/-- Two names, compared in their normal form. -/
def usernamesEqual (a b : JSString) : Bool :=
  let left := unicode.normalizeCanonicalNameForComparison (unicode.normalizeNFKC a)
  let right := unicode.normalizeCanonicalNameForComparison (unicode.normalizeNFKC b)
  !left.isEmpty && left = right

def missingOrganization (username : JSString) : JSString :=
  "Username must include an organization (O=...): got \"" ++ username.trim ++ "\""

/-- The parts of a name, by the functions that spell their types and their values. -/
def parseExpandedRdns (username : JSString) (orgType : JSString)
    (spellType spellValue : JSString → JSString) : Except JSString (List (JSString × JSString)) := do
  let trimmed := unicode.normalizeNFKC username.trim
  if trimmed.isEmpty then throw ("Username must not be empty" : JSString)
  let rdns ← (splitNameParts (expandAbbreviatedName trimmed)).mapM fun part =>
    match matchCanonicalPart part with
    | none => throw (missingOrganization username)
    | some (type, value) =>
      if type.isEmpty || value.isEmpty then throw (missingOrganization username)
      else pure (spellType type, spellValue value)
  if !(rdns.any fun rdn => rdn.1 = orgType && !rdn.2.isEmpty) then
    throw (missingOrganization username)
  return rdns

def joinRdns (rdns : List (JSString × JSString)) : JSString :=
  JSString.join "/" (rdns.map fun rdn => rdn.1 ++ "=" ++ rdn.2)

/-- The key of a person. -/
def canonicalizeUsername (username : JSString) : Except JSString JSString :=
  joinRdns <$> unicode.parseExpandedRdns username "O" unicode.toUpperCase unicode.toLowerCase

/-- How a person is displayed. -/
def formatCanonicalUsernameLabel (username : JSString) : Except JSString JSString :=
  joinRdns <$> unicode.parseExpandedRdns username "o" unicode.toLowerCase id

end UnicodeTables

end MindooDB.Sealed
