import MindooDB.Lib.JSString

/-!
# View/Types — values, sort keys and their order

`core/indexing/virtualviews/types.ts`, `ViewEntrySortKey.ts`, `ViewEntrySortKeyComparator.ts`.
The sentinel values of range scans are left out: no sort key of an entry holds one.

A view with `NaN` or an infinity among its values or totals is left out: of these `compareValues`
makes no order (`View/AnyOrder`), and JSON has no text for them.  The sums of `FiniteNumber`s are
exact.  What the language runtime decides (collation, the text of a date or an object) is a
`Runtime`.  Of a comparison only the sign is ever read.
-/

namespace MindooDB

inductive ColumnSorting where
  | NONE
  | ASCENDING
  | DESCENDING
  deriving DecidableEq

inductive TotalMode where
  | NONE
  | SUM
  | AVERAGE
  deriving DecidableEq

inductive CategorizationStyle where
  | DOCUMENT_THEN_CATEGORY
  | CATEGORY_THEN_DOCUMENT
  deriving DecidableEq

/-- The origin of the entries a view makes itself: its categories and its root. -/
def ORIGIN_VIRTUALVIEW : JSString := "virtualview"

def LOW_ORIGIN : JSString := "~~LOW~"

def HIGH_ORIGIN : JSString := "~~HIGH~"

def scopedDocIdKey (origin docId : JSString) : JSString := origin ++ (":" : JSString) ++ docId

theorem scopedDocIdKey_inj {origin docId docId' : JSString}
    (h : scopedDocIdKey origin docId = scopedDocIdKey origin docId') : docId = docId' :=
  JSString.units_injective (List.append_cancel_left (congrArg JSString.units h))

/-- The key cut at its first colon; `none` where it throws, for want of one. -/
def parseScopedDocIdKey (key : JSString) : Option (JSString × JSString) :=
  let isColon unit := decide (unit = Fin.ofNat 65536 ':'.toNat)
  if key.units.any isColon then
    some (⟨key.units.takeWhile (!isColon ·)⟩, ⟨(key.units.dropWhile (!isColon ·)).drop 1⟩)
  else none

/-! ## Values -/

/-- A number that is neither `NaN` nor an infinity. -/
abbrev FiniteNumber := ℚ

/-- What a column holds of a document. -/
inductive ColumnValue where
  | undefined
  | null
  | bool (b : Bool)
  | number (n : FiniteNumber)
  | string (s : JSString)
  | date (time : ℤ)
  | array (items : List ColumnValue)
  | object (fields : List (JSString × ColumnValue))

/-- What a column value asks of the language runtime. -/
structure Runtime where
  baseSensitivityCollator : JSString → JSString → ℤ
  defaultCollator : JSString → JSString → ℤ
  localeCompare : JSString → JSString → ℤ
  toISOString : ℤ → JSString
  toText : ColumnValue → JSString
  /-- `none` is `NaN`; no text in a total column says `Infinity`. -/
  parseFloat : JSString → Option FiniteNumber
  toLowerCase : JSString → JSString

/-- A token of a JSON text; two values have the same text when they have the same tokens. -/
inductive JsonToken where
  | null
  | bool (b : Bool)
  | number (n : FiniteNumber)
  | string (s : JSString)
  | beginArray
  | endArray
  | beginObject
  | endObject
  | comma
  deriving DecidableEq

namespace ColumnValue

mutual

/-- `JSON.stringify`, inside an array. -/
def stringify (toISOString : ℤ → JSString) : ColumnValue → List JsonToken
  | undefined => [.null]
  | null => [.null]
  | bool b => [.bool b]
  | number n => [.number n]
  | string s => [.string s]
  | date time => [.string (toISOString time)]
  | array items => .beginArray :: stringifyItems toISOString items
  | object fields => .beginObject :: stringifyFields toISOString fields

/-- The tokens of the items of a list. -/
def stringifyItems (toISOString : ℤ → JSString) : List ColumnValue → List JsonToken
  | [] => [.endArray]
  | v :: items => stringify toISOString v ++ .comma :: stringifyItems toISOString items

/-- A field that is `undefined` is left out. -/
def stringifyFields (toISOString : ℤ → JSString) :
    List (JSString × ColumnValue) → List JsonToken
  | [] => [.endObject]
  | (_, undefined) :: fields => stringifyFields toISOString fields
  | (k, v) :: fields =>
    .string k :: stringify toISOString v ++ .comma :: stringifyFields toISOString fields

end

/-- `v === null || v === undefined`. -/
def isNullish : ColumnValue → Bool
  | undefined => true
  | null => true
  | _ => false

/-- Whether `compareValues` takes a value for null. -/
def sortsAsNull : ColumnValue → Bool
  | string s => s.isEmpty
  | v => v.isNullish

/-- The order of the types of values that are not null. -/
def getDataTypeSortOrder : ColumnValue → ℤ
  | number _ => 1
  | date _ => 2
  | string _ => 3
  | _ => 4

end ColumnValue

/-- The sign of a difference. -/
def differenceSign (a b : FiniteNumber) : ℤ := if a < b then -1 else if a = b then 0 else 1

variable (env : Runtime)

def compareValues (a b : ColumnValue) (descending : Bool) : ℤ :=
  if a.sortsAsNull then (if b.sortsAsNull then 0 else if descending then -1 else 1)
  else if b.sortsAsNull then (if descending then 1 else -1)
  else if a.getDataTypeSortOrder ≠ b.getDataTypeSortOrder then
    (if descending then -1 else 1) * (a.getDataTypeSortOrder - b.getDataTypeSortOrder)
  else
    let result := match a, b with
      | .string a, .string b => env.baseSensitivityCollator a b
      | .number a, .number b => differenceSign a b
      | .date a, .date b => differenceSign a b
      | a, b => env.defaultCollator (env.toText a) (env.toText b)
    if descending then -result else result

/-! ## Sort keys -/

structure ViewEntrySortKey where
  isCategory : Bool
  values : List ColumnValue
  origin : JSString
  docId : JSString

/-- **The key of an entry among its siblings**, the text of its parts. -/
structure EntryKey where
  isCategory : Bool
  values : List JsonToken
  scopedDocId : JSString
  deriving DecidableEq

def ViewEntrySortKey.toKey (key : ViewEntrySortKey) : EntryKey where
  isCategory := key.isCategory
  values := ColumnValue.stringifyItems env.toISOString key.values
  scopedDocId := scopedDocIdKey key.origin key.docId

def categorySortKey (value : ColumnValue) : ViewEntrySortKey where
  isCategory := true
  values := [value]
  origin := ORIGIN_VIRTUALVIEW
  docId := ""

structure ViewEntrySortKeyComparator where
  categoriesOnTopOfDocuments : Bool
  categoryOrderDescending : Bool
  docOrderPerColumnDescending : List Bool

namespace ViewEntrySortKeyComparator

variable (cmp : ViewEntrySortKeyComparator)

def compareOriginAndDocId (o1 o2 : ViewEntrySortKey) : ℤ :=
  if o1.origin = LOW_ORIGIN then (if o2.origin = LOW_ORIGIN then 0 else -1)
  else if o2.origin = LOW_ORIGIN then 1
  else if o1.origin = HIGH_ORIGIN then (if o2.origin = HIGH_ORIGIN then 0 else 1)
  else if o2.origin = HIGH_ORIGIN then -1
  else
    let originResult := env.localeCompare o1.origin o2.origin
    if originResult ≠ 0 then originResult else env.localeCompare o1.docId o2.docId

def compareCategories (o1 o2 : ViewEntrySortKey) : ℤ :=
  let catVal1 := o1.values.head?.getD .null
  let catVal2 := o2.values.head?.getD .null
  if catVal1.isNullish then
    if catVal2.isNullish then compareOriginAndDocId env o1 o2
    else if cmp.categoryOrderDescending then -1 else 1
  else if catVal2.isNullish then (if cmp.categoryOrderDescending then 1 else -1)
  else
    let result := compareValues env catVal1 catVal2 cmp.categoryOrderDescending
    if result ≠ 0 then result else compareOriginAndDocId env o1 o2

/-- The loop of `compareDocuments`, over the columns' directions and what is left of the values. -/
def compareColumns (descending : List Bool) : ℕ → List ColumnValue → List ColumnValue → ℤ
  | 0, _, _ => 0
  | n + 1, values1, values2 =>
    let result := compareValues env (values1.head?.getD .null) (values2.head?.getD .null)
      (descending.head?.getD false)
    if result ≠ 0 then result
    else compareColumns descending.tail n values1.tail values2.tail

def compareDocuments (o1 o2 : ViewEntrySortKey) : ℤ :=
  let result := compareColumns env cmp.docOrderPerColumnDescending
    (max o1.values.length o2.values.length) o1.values o2.values
  if result ≠ 0 then result else compareOriginAndDocId env o1 o2

def compare (o1 o2 : ViewEntrySortKey) : ℤ :=
  match o1.isCategory, o2.isCategory with
  | true, false => if cmp.categoriesOnTopOfDocuments then -1 else 1
  | false, true => if cmp.categoriesOnTopOfDocuments then 1 else -1
  | true, true => cmp.compareCategories env o1 o2
  | false, false => cmp.compareDocuments env o1 o2

end ViewEntrySortKeyComparator

end MindooDB
