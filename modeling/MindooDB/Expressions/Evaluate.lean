import MindooDB.Lib.Json
import MindooDB.View.Entry

/-!
# Expressions/Evaluate — the expression language and the value of an expression

`core/expressions/types.ts` and `evaluateExpression.ts`.  An expression is a tree of plain JSON.  Two
arrays or objects are the same to `===` when they are one, so a value is kept with where it stands
(`Reference`): below the document, or below the node of the expression that made it.  A node is
evaluated once, so its place in the expression names what it made.

Members that objects inherit, and objects of a date, are left out.
-/

namespace MindooDB

inductive ExpressionDatePart where
  | year
  | month
  | day
  | quarter
  deriving DecidableEq

inductive ExpressionOperation where
  | createdAt
  | lastModifiedAt
  | decryptionKeyId
  | isWitnessed
  | isAwaitingWitness
  | attachmentNames
  | attachmentLengths
  | attachmentCount
  | childCount
  | childCategoryCount
  | childDocumentCount
  | descendantCount
  | descendantCategoryCount
  | descendantDocumentCount
  | siblingCount
  | add
  | sub
  | mul
  | div
  | mod
  | eq
  | neq
  | gt
  | gte
  | lt
  | lte
  | and
  | or
  | not
  | concat
  | lower
  | upper
  | trim
  | left
  | right
  | number
  | string
  | boolean
  | contains
  | startsWith
  | endsWith
  | coalesce
  | exists
  | notExists
  | pathJoin
  | datePart
  deriving DecidableEq

/-- **An expression.** -/
inductive MindooDBAppExpression where
  | literal (value : ColumnValue)
  | field (path : JSString)
  | value (path : JSString)
  | origin
  | var (name : JSString)
  | operation (op : ExpressionOperation) (args : List MindooDBAppExpression)
      (part : Option ExpressionDatePart)
  | ifElse (condition whenTrue whenFalse : MindooDBAppExpression)
  | letIn (bindings : List (JSString × MindooDBAppExpression)) (result : MindooDBAppExpression)
  | decrypt (field : JSString) (key : Option MindooDBAppExpression) (json : Bool)
      (path : Option JSString)
  | json (field : JSString) (path : Option JSString)

/-- What the evaluation asks of the language runtime, beside what the views ask of it: text and
numbers read from text, the parts of a date, and the length of a JSON text. -/
structure ExpressionRuntime extends Runtime where
  toNumber : JSString → Option ℚ
  toUpperCase : JSString → JSString
  trim : JSString → JSString
  parseDate : JSString → Option ℤ
  getUTCFullYear : ℤ → ℤ
  getUTCMonth : ℤ → ℕ
  getUTCDate : ℤ → ℕ
  parseJson : JSString → Option ColumnValue
  jsonLength : ColumnValue → ℕ

end MindooDB

namespace MindooDB

/-- Where an array or an object stands. -/
inductive Reference where
  | doc (path : List JSString)
  | node (position : List ℕ) (path : List JSString)
  deriving DecidableEq

def Reference.property (part : JSString) : Reference → Reference
  | doc path => doc (path ++ [part])
  | node position path => node position (path ++ [part])

/-- A value, and where it stands. -/
structure Evaluated where
  value : ColumnValue
  ref : Option Reference := none

namespace ColumnValue

/-- `value[name]`, when `typeof value` is `"object"`. -/
def property? : ColumnValue → JSString → Option ColumnValue
  | object fields, name => fields.lookup name
  | array items, name =>
    if name = "length" then some (number items.length)
    else (Json.arrayIndex? name).bind fun i => items[i]?
  | _, _ => none

/-- Whether `===` compares by identity. -/
def isReference : ColumnValue → Bool
  | array _ => true
  | object _ => true
  | date _ => true
  | _ => false

/-- `a === b` on values that are no references. -/
def strictEquals : ColumnValue → ColumnValue → Bool
  | undefined, undefined => true
  | null, null => true
  | bool a, bool b => a = b
  | number a, number b => a = b
  | string a, string b => a = b
  | _, _ => false

/-- Whether a value counts as missing. -/
def isBlank : ColumnValue → Bool
  | undefined => true
  | null => true
  | string s => s.isEmpty
  | _ => false

end ColumnValue

namespace Evaluated

/-- A value that stands nowhere. -/
def of (value : ColumnValue) : Evaluated := ⟨value, none⟩

def undefined : Evaluated := of .undefined

/-- One part of a path. -/
def property (current : Evaluated) (part : JSString) : Evaluated :=
  match current.value.property? part with
  | some value => ⟨value, current.ref.map (·.property part)⟩
  | none => undefined

/-- `===`, by identity for objects. -/
def strictEquals (a b : Evaluated) : Bool :=
  if a.value.isReference && b.value.isReference then a.ref.isSome && a.ref = b.ref
  else a.value.strictEquals b.value

end Evaluated

/-- A value read by a path from what the first part of the path reads. -/
def getFieldValue (source : JSString → Evaluated) (path : JSString) : Evaluated :=
  if path.isEmpty then .undefined
  else
    match path.split '.' with
    | [] => .undefined
    | part :: parts => parts.foldl Evaluated.property (source part)

/-- Read a document. -/
def readDoc (doc : ColumnValues) (part : JSString) : Evaluated :=
  Evaluated.property ⟨.object doc.toList, some (.doc [])⟩ part

/-- Read a record of values found before. -/
def readValues (values : List (JSString × Evaluated)) (part : JSString) : Evaluated :=
  (values.lookup part).getD .undefined

/-- What an expression is evaluated against. -/
structure ExpressionEvaluationContext where
  doc : ColumnValues
  values : List (JSString × Evaluated) := []
  origin : JSString
  createdAt : Option JSString := none
  lastModifiedAt : Option JSString := none
  decryptionKeyId : Option JSString := none
  witnessed : Option Bool := none
  awaitingWitness : Option Bool := none
  counts : ExpressionOperation → Option ℚ := fun _ => none
  vars : List (JSString × Evaluated) := []
  decrypted : Option (List (JSString × ColumnValue)) := none

variable (env : ExpressionRuntime)

/-! ## Conversions -/

/-- A number, or a text that is one. -/
def expressionToNumber : ColumnValue → Option ℚ
  | .number n => some n
  | .string s => if (env.trim s).isEmpty then none else env.toNumber s
  | _ => none

def expressionToBoolean : ColumnValue → Bool
  | .undefined => false
  | .null => false
  | .bool b => b
  | .number n => n ≠ 0
  | .string s =>
    let normalized := env.toLowerCase (env.trim s)
    normalized ≠ "" && normalized ≠ "false" && normalized ≠ "0" && normalized ≠ "no"
  | _ => true

/-- Truncation toward zero. -/
def truncate (n : ℚ) : ℤ := if 0 ≤ n then ⌊n⌋ else ⌈n⌉

/-- The time of a date-like value; the runtime's dates reach 8.64e15 milliseconds to either side. -/
def toDate : ColumnValue → Option ℤ
  | .date time => some time
  | .number n => if |n| ≤ 8640000000000000 then some (truncate n) else none
  | .string s => env.parseDate s
  | _ => none

/-- `String(value ?? "")`. -/
def textOf (value : ColumnValue) : JSString :=
  if value.isNullish then "" else env.toText value

def leftString (value delimiter : ColumnValue) : JSString :=
  let text := textOf env value
  match delimiter with
  | .number count => text.take (max 0 (truncate count)).toNat
  | _ => ((text.indexOf (textOf env delimiter)).map text.take).getD text

def rightString (value delimiter : ColumnValue) : JSString :=
  let text := textOf env value
  match delimiter with
  | .number count => text.drop (text.length - (max 0 (truncate count)).toNat)
  | _ =>
    let delimiter := textOf env delimiter
    ((text.lastIndexOf delimiter).map fun index => text.drop (index + delimiter.length)).getD text

def getAttachmentList (doc : ColumnValues) : List ColumnValue :=
  match doc.get? "_attachments" with
  | some (.array items) => items
  | _ => []

/-- `attachment[name]`, of those where it is a string. -/
def attachmentNames (doc : ColumnValues) : List ColumnValue :=
  (getAttachmentList doc).filterMap fun attachment =>
    match attachment.property? "fileName" with
    | some (.string s) => some (.string s)
    | _ => none

def attachmentLengths (doc : ColumnValues) : List ColumnValue :=
  (getAttachmentList doc).filterMap fun attachment =>
    match attachment.property? "size" with
    | some (.number n) => some (.number n)
    | _ => none

/-- `String(n).padStart(2, "0")`. -/
def padTwo (n : ℕ) : JSString :=
  if n < 10 then ("0" : JSString) ++ JSString.ofNat n else JSString.ofNat n

def datePart (part : Option ExpressionDatePart) (value : ColumnValue) : ColumnValue :=
  match toDate env value with
  | none => .null
  | some time =>
    match part with
    | some .year => .number (env.getUTCFullYear time)
    | some .month => .string (padTwo (env.getUTCMonth time + 1))
    | some .day => .string (padTwo (env.getUTCDate time))
    | some .quarter => .string (("Q" : JSString) ++ JSString.ofNat ((env.getUTCMonth time + 3) / 3))
    | none => .null

/-- A value that may be missing, as `?? null` leaves it. -/
def orNull (value : Option JSString) : ColumnValue := (value.map ColumnValue.string).getD .null

/-! ## Operations -/

/-- The value of an operation on the values of its arguments. -/
def applyOperation (op : ExpressionOperation) (part : Option ExpressionDatePart)
    (args : List Evaluated) (position : List ℕ) (context : ExpressionEvaluationContext) :
    Evaluated :=
  let arg (i : ℕ) : Evaluated := (args[i]?).getD .undefined
  let value (i : ℕ) : ColumnValue := (arg i).value
  let number (i : ℕ) : ℚ := (expressionToNumber env (value i)).getD 0
  let text (i : ℕ) : JSString := textOf env (value i)
  let lower (i : ℕ) : JSString := env.toLowerCase (text i)
  let divided (f : ℚ → ℚ → ℚ) : ColumnValue :=
    match expressionToNumber env (value 1) with
    | some divisor => if divisor ≠ 0 then .number (f (number 0) divisor) else .null
    | none => .null
  match op with
  | .createdAt => .of (orNull context.createdAt)
  | .lastModifiedAt => .of (orNull context.lastModifiedAt)
  | .decryptionKeyId => .of (orNull context.decryptionKeyId)
  | .isWitnessed => .of (.bool (context.witnessed.getD false))
  | .isAwaitingWitness => .of (.bool (context.awaitingWitness.getD false))
  | .attachmentNames => ⟨.array (attachmentNames context.doc), some (.node position [])⟩
  | .attachmentLengths => ⟨.array (attachmentLengths context.doc), some (.node position [])⟩
  | .attachmentCount => .of (.number (getAttachmentList context.doc).length)
  | .childCount | .childCategoryCount | .childDocumentCount | .descendantCount
  | .descendantCategoryCount | .descendantDocumentCount | .siblingCount =>
    .of (.number ((context.counts op).getD 0))
  | .add => .of (.number (number 0 + number 1))
  | .sub => .of (.number (number 0 - number 1))
  | .mul => .of (.number (number 0 * number 1))
  | .div => .of (divided fun a b => a / b)
  | .mod => .of (divided fun a b => a - b * truncate (a / b))
  | .eq => .of (.bool ((arg 0).strictEquals (arg 1)))
  | .neq => .of (.bool (!(arg 0).strictEquals (arg 1)))
  | .gt => .of (.bool (text 1 < text 0))
  | .gte => .of (.bool (text 1 ≤ text 0))
  | .lt => .of (.bool (text 0 < text 1))
  | .lte => .of (.bool (text 0 ≤ text 1))
  | .and => .of (.bool (args.all fun a => expressionToBoolean env a.value))
  | .or => .of (.bool (args.any fun a => expressionToBoolean env a.value))
  | .not => .of (.bool (!expressionToBoolean env (value 0)))
  | .concat => .of (.string (JSString.join ""
      ((args.filter fun a => !a.value.isBlank).map fun a => env.toText a.value)))
  | .lower => .of (.string (lower 0))
  | .upper => .of (.string (env.toUpperCase (text 0)))
  | .trim => .of (.string (env.trim (text 0)))
  | .left => .of (.string (leftString env (value 0) (value 1)))
  | .right => .of (.string (rightString env (value 0) (value 1)))
  | .number => .of (((expressionToNumber env (value 0)).map ColumnValue.number).getD .null)
  | .string => .of (.string (text 0))
  | .boolean => .of (.bool (expressionToBoolean env (value 0)))
  | .contains => .of (.bool ((lower 0).includes (lower 1)))
  | .startsWith => .of (.bool ((lower 0).startsWith (lower 1)))
  | .endsWith => .of (.bool ((lower 0).endsWith (lower 1)))
  | .coalesce => (args.find? fun a => !a.value.isBlank).getD .undefined
  | .exists => .of (.bool (!(value 0).isBlank))
  | .notExists => .of (.bool (value 0).isBlank)
  | .pathJoin => .of (.string (JSString.join "\\"
      ((args.map fun a => env.trim (textOf env a.value)).filter fun part => !part.isEmpty)))
  | .datePart => .of (datePart env part (value 0))

/-- A value parsed when it is text, and what is at a path in it. -/
def parseAndExtract (value : Evaluated) (path : Option JSString) (position : List ℕ) : Evaluated :=
  if value.value.isNullish then .of .null
  else
    let parsed : Option Evaluated :=
      match value.value with
      | .string s => (env.parseJson s).map fun parsed => ⟨parsed, some (.node position [])⟩
      | _ => some value
    match parsed with
    | none => .of .null
    | some parsed =>
      match path with
      | none => parsed
      | some path => if path.isEmpty then parsed else getFieldValue parsed.property path

mutual

/-- **The value of an expression.** -/
def evaluateExpression (expression : MindooDBAppExpression) (position : List ℕ)
    (context : ExpressionEvaluationContext) : Evaluated :=
  match expression with
  | .literal value => ⟨value, some (.node position [])⟩
  | .field path => getFieldValue (readDoc context.doc) path
  | .value path => getFieldValue (readValues context.values) path
  | .origin => .of (.string context.origin)
  | .var name => (context.vars.lookup name).getD .undefined
  | .operation op args part =>
    applyOperation env op part (evaluateArgs args 0 position context) position context
  | .ifElse condition whenTrue whenFalse =>
    if expressionToBoolean env (evaluateExpression condition (position ++ [0]) context).value then
      evaluateExpression whenTrue (position ++ [1]) context
    else evaluateExpression whenFalse (position ++ [2]) context
  | .letIn bindings result =>
    evaluateExpression result (position ++ [0])
      { context with vars := evaluateBindings bindings 1 position context }
  | .decrypt field _ json path =>
    let raw := ((context.decrypted.bind (List.lookup field)).getD .undefined)
    let raw : Evaluated := .of (if raw.isNullish then .null else raw)
    if json then parseAndExtract env raw path position else raw
  | .json field path =>
    parseAndExtract env (getFieldValue (readDoc context.doc) field) path position

def evaluateArgs (args : List MindooDBAppExpression) (i : ℕ) (position : List ℕ)
    (context : ExpressionEvaluationContext) : List Evaluated :=
  match args with
  | [] => []
  | arg :: args =>
    evaluateExpression arg (position ++ [i]) context :: evaluateArgs args (i + 1) position context

/-- The variables behind the bindings of a `let`, each of which sees those before it. -/
def evaluateBindings (bindings : List (JSString × MindooDBAppExpression)) (i : ℕ)
    (position : List ℕ) (context : ExpressionEvaluationContext) : List (JSString × Evaluated) :=
  match bindings with
  | [] => context.vars
  | (name, binding) :: bindings =>
    let value := evaluateExpression binding (position ++ [i]) context
    evaluateBindings bindings (i + 1) position
      { context with vars := LinkedMap.setList name value context.vars }

end

end MindooDB
