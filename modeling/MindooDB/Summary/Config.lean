import MindooDB.Expressions.Evaluate

/-!
# Summary/Config — which fields of a document are kept

`core/indexing/summary/types.ts` and `extractSummaryFields.ts`: the configuration of the summary and
the fields that it takes from the data of a document.  Two configurations with one fingerprint take
the same fields (`extractSummaryFields_congr`).
-/

namespace MindooDB

/-- The document that configures the summary. -/
def DB_SETUP_DOC_ID : JSString := "dbsetup"

def SUMMARY_SETUP_FIELD : JSString := "summarySetup"

structure SummaryConfig where
  autoInclude : Option Bool := none
  maxValueBytes : Option ℚ := none
  includePaths : Option (List JSString) := none
  excludePaths : Option (List JSString) := none
  includeAttachments : Option Bool := none

/-- A configuration with its defaults. -/
structure ResolvedSummaryConfig where
  autoInclude : Bool
  maxValueBytes : ℚ
  includePaths : List JSString
  excludePaths : List JSString
  includeAttachments : Bool
  deriving DecidableEq

def DEFAULT_SUMMARY_MAX_VALUE_BYTES : ℚ := 1024

def resolveSummaryConfig (config : SummaryConfig) : ResolvedSummaryConfig where
  autoInclude := config.autoInclude.getD true
  maxValueBytes := max 0 (config.maxValueBytes.getD DEFAULT_SUMMARY_MAX_VALUE_BYTES)
  includePaths := config.includePaths.getD []
  excludePaths := config.excludePaths.getD []
  includeAttachments := config.includeAttachments.getD true

/-- `raw.name`. -/
def fieldOf (raw : List (JSString × ColumnValue)) (name : JSString) : Option ColumnValue :=
  raw.lookup name

namespace ColumnValue

def asBool? : Option ColumnValue → Option Bool
  | some (bool b) => some b
  | _ => none

def asNumber? : Option ColumnValue → Option ℚ
  | some (number n) => some n
  | _ => none

def asString? : Option ColumnValue → Option JSString
  | some (string s) => some s
  | _ => none

/-- The strings among the items, of an array. -/
def stringItems? : Option ColumnValue → Option (List JSString)
  | some (array items) => some (items.filterMap fun item => asString? (some item))
  | _ => none

end ColumnValue

/-- What the setup document says, as far as it is well typed. -/
def sanitizeSummaryConfig (value : Option ColumnValue) : Option SummaryConfig :=
  match value with
  | some (.object raw) =>
    some
      { autoInclude := ColumnValue.asBool? (fieldOf raw "autoInclude")
        maxValueBytes := ColumnValue.asNumber? (fieldOf raw "maxValueBytes")
        includePaths := ColumnValue.stringItems? (fieldOf raw "include")
        excludePaths := ColumnValue.stringItems? (fieldOf raw "exclude")
        includeAttachments := ColumnValue.asBool? (fieldOf raw "includeAttachments") }
  | _ => none

/-- The fingerprint is the text of the configuration with its paths sorted. -/
def computeSummaryConfigFingerprint (config : ResolvedSummaryConfig) : ResolvedSummaryConfig :=
  { config with
    includePaths := JSString.sort config.includePaths
    excludePaths := JSString.sort config.excludePaths }

/-! ## Extraction -/

/-- An own property of a value that is an object and no array. -/
def resolveSegment (current : ColumnValue) (segment : JSString) : ColumnValue :=
  match current with
  | .object fields => (fields.lookup segment).getD .undefined
  | _ => .undefined

def resolveFieldPath (data : ColumnValues) (path : JSString) : ColumnValue :=
  if path.includes "." then (path.split '.').foldl resolveSegment (.object data.toList)
  else (data.get? path).getD .undefined

def isScalar : ColumnValue → Bool
  | .null => true
  | .string _ => true
  | .number _ => true
  | .bool _ => true
  | _ => false

def isAutoIncludableValue : ColumnValue → Bool
  | .array items => items.all isScalar
  | value => isScalar value

variable (env : ExpressionRuntime)

/-- About how long its JSON is. -/
def estimateValueSize : ColumnValue → ℕ
  | .undefined => 0
  | .string s => s.length + 2
  | value => env.jsonLength value

def isExcluded (path : JSString) (exclude : List JSString) : Bool :=
  exclude.any fun excluded => path = excluded || path.startsWith (excluded ++ (".") : JSString)

def isEncryptedConventionField (key : JSString) : Bool :=
  key.endsWith "_encrypted" || key.endsWith "_encrypted_key"

def ATTACHMENTS_FIELD : JSString := "_attachments"

/-- A field that is copied when it has its type. -/
def copyField (raw : List (JSString × ColumnValue)) (name : JSString)
    (typed : ColumnValue → Bool) : List (JSString × ColumnValue) :=
  match fieldOf raw name with
  | some value => if typed value then [(name, value)] else []
  | none => []

def isString : ColumnValue → Bool
  | .string _ => true
  | _ => false

def isNumber : ColumnValue → Bool
  | .number _ => true
  | _ => false

/-- The slim projection of one attachment; a value that is no object has none. -/
def projectAttachment : ColumnValue → Option ColumnValue
  | .object raw => some <| .object <|
      copyField raw "attachmentId" isString ++ copyField raw "fileName" isString
        ++ copyField raw "size" isNumber ++ copyField raw "mimeType" isString
        ++ copyField raw "createdAt" isNumber
        ++ (match fieldOf raw "extractedText" with
          | some (.string text) => if text.isEmpty then [] else [("hasExtractedText", .bool true)]
          | _ => [])
  | .array _ => some (.object [])
  | .date _ => some (.object [])
  | _ => none

def projectAttachments : ColumnValue → Option ColumnValue
  | .array items =>
    let projected := items.filterMap projectAttachment
    if projected.isEmpty then none else some (.array projected)
  | _ => none

/-- The fields that auto-include takes. -/
def isAutoIncluded (config : ResolvedSummaryConfig) (field : JSString × ColumnValue) : Bool :=
  !field.1.startsWith "_" && !isEncryptedConventionField field.1
    && !isExcluded field.1 config.excludePaths && isAutoIncludableValue field.2
    && (estimateValueSize env field.2 : ℚ) ≤ config.maxValueBytes

/-- The fields that auto-include stores. -/
def autoIncluded (data : ColumnValues) (config : ResolvedSummaryConfig) : ColumnValues :=
  if config.autoInclude then
    (data.toList.filter (isAutoIncluded env config)).foldl
      (fun fields field => fields.set field.1 field.2) ∅
  else ∅

/-- Store what is at an included path. -/
def includePath (data : ColumnValues) (config : ResolvedSummaryConfig) (fields : ColumnValues)
    (path : JSString) : ColumnValues :=
  if isExcluded path config.excludePaths then fields
  else
    match resolveFieldPath data path with
    | .undefined => fields
    | value => fields.set path value

/-- **The fields of a document that the summary keeps.** -/
def extractSummaryFields (data : ColumnValues) (config : ResolvedSummaryConfig) : ColumnValues :=
  let fields := config.includePaths.foldl (includePath data config) (autoIncluded env data config)
  if config.includeAttachments && !isExcluded ATTACHMENTS_FIELD config.excludePaths then
    match (data.get? ATTACHMENTS_FIELD).bind projectAttachments with
    | some attachments => fields.set ATTACHMENTS_FIELD attachments
    | none => fields
  else fields

/-! ### Two configurations with one fingerprint -/

/-- Two records of fields with the same value for each key. -/
def SameFields (fields fields' : ColumnValues) : Prop :=
  ∀ key, fields.get? key = fields'.get? key

theorem mem_sort {l : List JSString} {s : JSString} : s ∈ JSString.sort l ↔ s ∈ l :=
  (JSString.perm_sort l).mem_iff

theorem isExcluded_eq_of_mem_iff {path : JSString} {exclude exclude' : List JSString}
    (h : ∀ s, s ∈ exclude ↔ s ∈ exclude') : isExcluded path exclude = isExcluded path exclude' := by
  rw [Bool.eq_iff_iff, isExcluded, isExcluded, List.any_eq_true, List.any_eq_true]
  exact exists_congr fun s => and_congr_left' (h s)

variable {env}

/-- A value that is there. -/
def defined? : ColumnValue → Option ColumnValue
  | .undefined => none
  | value => some value

/-- What an included path stores. -/
def stored? (data : ColumnValues) (config : ResolvedSummaryConfig) (path : JSString) :
    Option ColumnValue :=
  if isExcluded path config.excludePaths then none else defined? (resolveFieldPath data path)

theorem includePath_eq (data : ColumnValues) (config : ResolvedSummaryConfig)
    (fields : ColumnValues) (path : JSString) : includePath data config fields path
      = match stored? data config path with
        | some value => fields.set path value
        | none => fields := by
  rw [includePath, stored?]
  split
  · rfl
  · cases resolveFieldPath data path <;> rfl

/-- What the included paths have stored under a key. -/
theorem get?_foldl_includePath (data : ColumnValues) (config : ResolvedSummaryConfig)
    (paths : List JSString) (fields : ColumnValues) (key : JSString) :
    (paths.foldl (includePath data config) fields).get? key
      = (if key ∈ paths then stored? data config key else none).or (fields.get? key) := by
  induction paths generalizing fields with
  | nil => simp
  | cons path paths ih =>
    rw [List.foldl_cons, ih, includePath_eq]
    by_cases hkey : key = path
    · subst hkey
      cases hstored : stored? data config key with
      | none => simp
      | some value => by_cases hmem : key ∈ paths <;> simp [hmem]
    · have hfirst : (match stored? data config path with
          | some value => fields.set path value
          | none => fields).get? key = fields.get? key := by
        cases stored? data config path with
        | none => rfl
        | some value => exact LinkedMap.get?_set_of_ne _ _ hkey
      rw [hfirst]
      simp [hkey]

/-- **Two configurations with one fingerprint take the same fields.** -/
theorem extractSummaryFields_congr {config config' : ResolvedSummaryConfig} (data : ColumnValues)
    (h : computeSummaryConfigFingerprint config = computeSummaryConfigFingerprint config') :
    SameFields (extractSummaryFields env data config) (extractSummaryFields env data config') := by
  have hauto : config.autoInclude = config'.autoInclude :=
    (congrArg ResolvedSummaryConfig.autoInclude h :)
  have hbytes : config.maxValueBytes = config'.maxValueBytes :=
    (congrArg ResolvedSummaryConfig.maxValueBytes h :)
  have hattachments : config.includeAttachments = config'.includeAttachments :=
    (congrArg ResolvedSummaryConfig.includeAttachments h :)
  have hinclude : ∀ s, s ∈ config.includePaths ↔ s ∈ config'.includePaths := fun s => by
    have hsorted : JSString.sort config.includePaths = JSString.sort config'.includePaths :=
      (congrArg ResolvedSummaryConfig.includePaths h :)
    rw [← mem_sort, hsorted, mem_sort]
  have hexcluded : ∀ path, isExcluded path config.excludePaths = isExcluded path config'.excludePaths :=
    fun path => isExcluded_eq_of_mem_iff fun s => by
      have hsorted : JSString.sort config.excludePaths = JSString.sort config'.excludePaths :=
        (congrArg ResolvedSummaryConfig.excludePaths h :)
      rw [← mem_sort, hsorted, mem_sort]
  have hfields : autoIncluded env data config = autoIncluded env data config' := by
    have hpredicate : isAutoIncluded env config = isAutoIncluded env config' := by
      funext field
      rw [isAutoIncluded, isAutoIncluded, hexcluded, hbytes]
    rw [autoIncluded, autoIncluded, hauto, hpredicate]
  have hpaths : SameFields
      (config.includePaths.foldl (includePath data config) (autoIncluded env data config))
      (config'.includePaths.foldl (includePath data config') (autoIncluded env data config')) := by
    intro key
    rw [get?_foldl_includePath, get?_foldl_includePath, hfields, stored?, stored?, hexcluded]
    simp only [hinclude]
  intro key
  rw [extractSummaryFields, extractSummaryFields, hattachments, hexcluded]
  split
  · cases (data.get? ATTACHMENTS_FIELD).bind projectAttachments with
    | none => exact hpaths key
    | some attachments =>
      by_cases hkey : key = ATTACHMENTS_FIELD
      · subst hkey
        simp only [LinkedMap.get?_set_self]
      · simp only [LinkedMap.get?_set_of_ne _ _ hkey]
        exact hpaths key
  · exact hpaths key

variable (env)

theorem computeSummaryConfigFingerprint_idem (config : ResolvedSummaryConfig) :
    computeSummaryConfigFingerprint (computeSummaryConfigFingerprint config)
      = computeSummaryConfigFingerprint config := by
  rw [computeSummaryConfigFingerprint, computeSummaryConfigFingerprint]
  simp only [JSString.sort_eq_of_perm (JSString.perm_sort _)]

/-! ## Reading -/

/-- Own fields first, then the path. -/
def getSummaryFieldValue (fields : ColumnValues) (path : JSString) : ColumnValue :=
  match fields.get? path with
  | some value => value
  | none => resolveFieldPath fields path

/-- Put a value at a path of nested objects, made where there are none. -/
def setAtPath (value : ColumnValue) :
    List JSString → List (JSString × ColumnValue) → List (JSString × ColumnValue)
  | [], fields => fields
  | [part], fields => LinkedMap.setList part value fields
  | part :: parts, fields =>
    match fields.lookup part with
    | some (.object inner) =>
      LinkedMap.setList part (.object (setAtPath value parts inner)) fields
    | _ => LinkedMap.setList part (.object (setAtPath value parts [])) fields

/-- One stored field in the document that expressions read. -/
def placeField (doc : ColumnValues) (field : JSString × ColumnValue) : ColumnValues :=
  match field.1.split '.' with
  | part :: next :: parts =>
    let inner := match doc.get? part with
      | some (.object inner) => inner
      | _ => []
    doc.set part (.object (setAtPath field.2 (next :: parts) inner))
  | _ => doc.set field.1 field.2

/-- **The document that expressions read** instead of the real one. -/
def buildSummaryEvaluationDoc (fields : ColumnValues) (lastModified : ℚ) : ColumnValues :=
  if fields.keys.any (·.includes ".") then
    fields.toList.foldl placeField ((∅ : ColumnValues).set "_lastModified" (.number lastModified))
  else fields.set "_lastModified" (.number lastModified)

end MindooDB
