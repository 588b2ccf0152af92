import MindooDB.Lib.JSString

/-!
# Lib/Json — untyped data

The value of a document field as JavaScript finds it: `unknown` until `typeof` and `Array.isArray`
have looked.  A field that is not there reads as `none`.

Property access, iteration and conversion to text on a value whose shape nobody has checked: `none`
is a `TypeError`.  Of the properties read this way no array, string or other primitive has one.
-/

/-- A number; `none` is for those that are not finite. -/
abbrev JsNumber := Option ℚ

/-- **A JSON-like value.** -/
inductive Json where
  | null
  | bool (b : Bool)
  | number (n : JsNumber)
  | string (s : JSString)
  | array (items : List Json)
  | object (fields : List (JSString × Json))

/-- `Record<string, unknown>`. -/
abbrev JsonObject := List (JSString × Json)

/-- `data.key`, `none` when it is not there. -/
def JsonObject.field (data : JsonObject) (key : JSString) : Option Json := data.lookup key

namespace Json

mutual

/-- Whether two values have the same `JSON.stringify`, which writes a number that is not finite as
`null`. -/
def sameText : Json → Json → Bool
  | null, null => true
  | null, number none => true
  | number none, null => true
  | bool b, bool b' => b = b'
  | number n, number n' => n = n'
  | string s, string s' => s = s'
  | array items, array items' => sameItems items items'
  | object fields, object fields' => sameFields fields fields'
  | _, _ => false

def sameItems : List Json → List Json → Bool
  | [], [] => true
  | v :: items, v' :: items' => sameText v v' && sameItems items items'
  | _, _ => false

def sameFields : List (JSString × Json) → List (JSString × Json) → Bool
  | [], [] => true
  | (k, v) :: fields, (k', v') :: fields' => k = k' && sameText v v' && sameFields fields fields'
  | _, _ => false

end

/-! ## `typeof` -/

def asString? : Option Json → Option JSString
  | some (string s) => some s
  | _ => none

def asBool? : Option Json → Option Bool
  | some (bool b) => some b
  | _ => none

def asNumber? : Option Json → Option JsNumber
  | some (number n) => some n
  | _ => none

/-- `typeof v === "number" && Number.isFinite(v)`. -/
def asFiniteNumber? (v : Option Json) : Option ℚ := (asNumber? v).join

/-- The items, when `Array.isArray(v)`. -/
def asArray? : Option Json → Option (List Json)
  | some (array items) => some items
  | _ => none

/-- The fields, of a value that is an object and no array. -/
def asObject? : Option Json → Option JsonObject
  | some (object fields) => some fields
  | _ => none

/-- `v === "…"`. -/
def isString (v : Option Json) (s : JSString) : Bool := asString? v = some s

/-- The strings among the items, `none` when it is no array. -/
def stringItems? (v : Option Json) : Option (List JSString) :=
  (asArray? v).map fun items => items.filterMap fun item => asString? (some item)

/-! ## Comparing and reading -/

/-- `a === b` on primitives; two arrays or objects read from different places are
never the same, nor is a number that is not finite. -/
def strictEquals : Json → Json → Bool
  | .null, .null => true
  | .bool a, .bool b => a = b
  | .number (some a), .number (some b) => a = b
  | .string a, .string b => a = b
  | _, _ => false

/-- The index an array is read at by a property name. -/
def arrayIndex? (name : JSString) : Option ℕ :=
  match name.units.map Fin.val with
  | [] => none
  | [0x30] => some 0
  | first :: rest =>
    if first ≠ 0x30 ∧ (first :: rest).all fun unit => 0x30 ≤ unit ∧ unit ≤ 0x39 then
      some ((first :: rest).foldl (fun n unit => 10 * n + (unit - 0x30)) 0)
    else none

/-- `value[name]`, when `typeof value` is `"object"`. -/
def property? : Json → JSString → Option Json
  | .object fields, name => fields.lookup name
  | .array items, name =>
    if name = "length" then some (.number (some items.length))
    else (arrayIndex? name).bind fun i => items[i]?
  | _, _ => none

end Json

/-- A value that may be `undefined`. -/
abbrev JsValue := Option Json

namespace JsValue

/-- `v === null || v === undefined`. -/
def isNullish : JsValue → Bool
  | none => true
  | some .null => true
  | _ => false

/-- What an `if` makes of a value; a number that is not finite is infinite, as the parser has read
it. -/
def truthy : JsValue → Bool
  | none => false
  | some .null => false
  | some (.bool b) => b
  | some (.number n) => n ≠ some 0
  | some (.string s) => !s.isEmpty
  | some (.array _) => true
  | some (.object _) => true

/-- `v.name`, which throws on `null` and `undefined`. -/
def get (v : JsValue) (name : JSString) : Option JsValue :=
  match v with
  | none => none
  | some .null => none
  | some (.object fields) => some (fields.lookup name)
  | some _ => some none

/-- The code points of a string. -/
def codePoints : List (Fin 65536) → List JSString
  | [] => []
  | [unit] => [⟨[unit]⟩]
  | high :: low :: rest =>
    if 0xD800 ≤ high.val ∧ high.val < 0xDC00 ∧ 0xDC00 ≤ low.val ∧ low.val < 0xE000 then
      ⟨[high, low]⟩ :: codePoints rest
    else ⟨[high]⟩ :: codePoints (low :: rest)

/-- `[...v]`, which throws on what is not iterable. -/
def iterate : JsValue → Option (List Json)
  | some (.array items) => some items
  | some (.string s) => some ((codePoints s.units).map .string)
  | _ => none

/-- `Object.entries(v)`. -/
def entries : Json → List (JSString × Json)
  | .object fields => fields
  | .array items => items.zipIdx.map fun e => (JSString.ofNat e.2, e.1)
  | .string s => s.units.zipIdx.map fun e => (JSString.ofNat e.2, .string ⟨[e.1]⟩)
  | _ => []

mutual

/-- The text of a value in a template literal; `numberText` is that of a number.  An object that
hides the `toString` of its prototype has none. -/
def text (numberText : JsNumber → JSString) : Json → Option JSString
  | .null => some "null"
  | .bool true => some "true"
  | .bool false => some "false"
  | .number n => some (numberText n)
  | .string s => some s
  | .array items => (itemTexts numberText items).map (JSString.join ",")
  | .object fields =>
    if (fields.lookup ("toString" : JSString)).isSome then none else some "[object Object]"

def itemTexts (numberText : JsNumber → JSString) : List Json → Option (List JSString)
  | [] => some []
  | .null :: items => (itemTexts numberText items).map ("" :: ·)
  | item :: items => do
    let first ← text numberText item
    let rest ← itemTexts numberText items
    some (first :: rest)

end

/-- The text of a value that may be `undefined`. -/
def textOf (numberText : JsNumber → JSString) : JsValue → Option JSString
  | none => some "undefined"
  | some v => text numberText v

/-- The values of `new Set(items)`. -/
def newSet (items : List Json) : List Json :=
  items.foldl (fun seen v => if seen.any (·.strictEquals v) then seen else seen ++ [v]) []

/-! ## The objects in a value -/

mutual

/-- How many objects a value is made of. -/
def objects : Json → ℕ
  | .array items => itemObjects items
  | .object fields => fieldObjects fields + 1
  | _ => 0

def itemObjects : List Json → ℕ
  | [] => 0
  | item :: items => objects item + itemObjects items

def fieldObjects : List (JSString × Json) → ℕ
  | [] => 0
  | (_, v) :: fields => objects v + fieldObjects fields

end

theorem objects_le_fieldObjects {fields : List (JSString × Json)} {name : JSString} {v : Json}
    (h : fields.lookup name = some v) : objects v ≤ fieldObjects fields := by
  induction fields with
  | nil => exact nomatch h
  | cons field fields ih =>
    obtain ⟨key, value⟩ := field
    rw [fieldObjects]
    rw [List.lookup_cons] at h
    split at h
    · obtain rfl := Option.some.inj h
      exact Nat.le_add_right _ _
    · exact (ih h).trans (Nat.le_add_left _ _)

theorem itemObjects_strings (texts : List JSString) : itemObjects (texts.map .string) = 0 := by
  induction texts with
  | nil => rfl
  | cons s texts ih =>
    rw [List.map_cons, itemObjects, ih]
    rfl

/-- What is iterated has no more objects than the value. -/
theorem itemObjects_le_of_iterate {v : Json} {items : List Json} (h : iterate (some v) = some items) :
    itemObjects items ≤ objects v := by
  cases v with
  | array items' =>
    obtain rfl := Option.some.inj h
    exact le_rfl
  | string s =>
    obtain rfl := Option.some.inj h
    exact (itemObjects_strings _).le.trans (Nat.zero_le _)
  | null | bool b | number n | object fields => exact absurd h (by simp [iterate])

/-- A property that is there is one of an object, which has an object more than it. -/
theorem objects_lt_of_get {v w : Json} {name : JSString} (h : get (some v) name = some (some w)) :
    objects w < objects v := by
  cases v with
  | object fields =>
    rw [objects, Nat.lt_succ_iff]
    exact objects_le_fieldObjects (Option.some.inj h)
  | null | bool b | number n | string s | array items => exact absurd h (by simp [get])

end JsValue
