import MindooDB.Lib.Json
import MindooDB.Lib.LinkedMap

/-!
# History/ReadableDiff — the paths at which two states of a document differ

`collectReadableDiffPaths` of `BaseMindooDB.ts`, on JSON values.  It descends into whatever either
side has, and records the path of what it cannot descend into.  Two containers are never the same
object, since both states have just been converted; so an empty container is recorded even where
both sides have it, and at the top, whose path is empty, nothing is recorded at all
(`diffIsExact_iff`).
-/

namespace MindooDB

open LinkedSet List

/-- A step into a value. -/
inductive PathStep where
  | index (i : ℕ)
  | key (name : JSString)
  deriving DecidableEq

/-- **A place in a value.** -/
abbrev ValuePath := List PathStep

namespace ReadableDiff

/-! ## The code -/

/-- `Array.isArray(value)`. -/
def isArray : JsValue → Bool
  | some (.array _) => true
  | _ => false

/-- Among JSON values there are no binary payloads. -/
def isPlainDiffObject : JsValue → Bool
  | some (.object _) => true
  | _ => false

/-- The items of an array, none of anything else. -/
def arrayOf : JsValue → List Json
  | some (.array items) => items
  | _ => []

/-- The members of an object, none of anything else. -/
def objectOf : JsValue → List (JSString × Json)
  | some (.object fields) => fields
  | _ => []

/-- `Object.is`; no two containers are the same object. -/
def objectIs : JsValue → JsValue → Bool
  | none, none => true
  | some .null, some .null => true
  | some (.bool b), some (.bool b') => b = b'
  | some (.number n), some (.number n') => n = n'
  | some (.string s), some (.string s') => s = s'
  | _, _ => false

variable {v : JsValue} {name : JSString}

theorem arrayOf_eq_nil (h : isArray v = false) : arrayOf v = [] := by
  unfold arrayOf
  split
  · exact absurd h (by simp [isArray])
  · rfl

theorem objectOf_eq_nil (h : isPlainDiffObject v = false) : objectOf v = [] := by
  unfold objectOf
  split
  · exact absurd h (by simp [isPlainDiffObject])
  · rfl

theorem eq_of_isArray (h : isArray v = true) : v = some (.array (arrayOf v)) := by
  unfold isArray at h
  split at h
  · rfl
  · exact nomatch h

theorem eq_of_isPlainDiffObject (h : isPlainDiffObject v = true) :
    v = some (.object (objectOf v)) := by
  unfold isPlainDiffObject at h
  split at h
  · rfl
  · exact nomatch h

/-- How large a value is; `undefined` is smaller than all others. -/
noncomputable def weight : JsValue → ℕ
  | none => 0
  | some v => sizeOf v

theorem weight_item_lt (h : isArray v = true) (i : ℕ) :
    weight (arrayOf v)[i]? < weight v := by
  match v, h with
  | some (.array items), _ =>
    rw [arrayOf, weight.eq_2, Json.array.sizeOf_spec]
    cases hitem : items[i]? with
    | none =>
      rw [weight]
      omega
    | some item =>
      have hlt := sizeOf_lt_of_mem (mem_of_getElem? hitem)
      rw [weight]
      omega

theorem weight_item_le (v : JsValue) (i : ℕ) : weight (arrayOf v)[i]? ≤ weight v := by
  cases h : isArray v with
  | true => exact (weight_item_lt h i).le
  | false =>
    rw [arrayOf_eq_nil h, getElem?_nil]
    exact Nat.zero_le _

theorem mem_of_lookup {item : Json} {fields : List (JSString × Json)}
    (h : fields.lookup name = some item) : (name, item) ∈ fields := by
  induction fields with
  | nil => exact nomatch h
  | cons e fields ih =>
    rw [lookup_cons] at h
    split at h
    · rename_i heq
      obtain rfl := eq_of_beq heq
      obtain rfl := Option.some.inj h
      exact mem_cons_self
    · exact mem_cons_of_mem _ (ih h)

theorem weight_member_lt (h : isPlainDiffObject v = true) (name : JSString) :
    weight ((objectOf v).lookup name) < weight v := by
  match v, h with
  | some (.object fields), _ =>
    rw [objectOf, weight.eq_2, Json.object.sizeOf_spec]
    cases hitem : fields.lookup name with
    | none =>
      rw [weight]
      omega
    | some item =>
      have hlt := sizeOf_lt_of_mem (mem_of_lookup hitem)
      rw [Prod.mk.sizeOf_spec] at hlt
      rw [weight]
      omega

theorem weight_member_le (v : JsValue) (name : JSString) :
    weight ((objectOf v).lookup name) ≤ weight v := by
  cases h : isPlainDiffObject v with
  | true => exact (weight_member_lt h name).le
  | false =>
    rw [objectOf_eq_nil h, lookup_nil]
    exact Nat.zero_le _

/-- The path of a value one step below. -/
def stepText (basePath : JSString) : PathStep → JSString
  | .index i => basePath ++ "[" ++ JSString.ofNat i ++ "]"
  | .key name => if basePath.isEmpty then name else basePath ++ "." ++ name

/-- **The paths that differ**, in order. -/
def collectReadableDiffPaths (beforeValue afterValue : JsValue) (basePath : JSString)
    (results : LinkedSet JSString) : LinkedSet JSString :=
  if objectIs beforeValue afterValue then results
  else if harray : isArray beforeValue || isArray afterValue then
    let maxLength := max (arrayOf beforeValue).length (arrayOf afterValue).length
    if maxLength = 0 && !basePath.isEmpty then results.add basePath
    else (List.range maxLength).foldl (fun results index =>
      collectReadableDiffPaths (arrayOf beforeValue)[index]? (arrayOf afterValue)[index]?
        (stepText basePath (.index index)) results) results
  else if _hobject : isPlainDiffObject beforeValue || isPlainDiffObject afterValue then
    let childKeys := ofList
      ((objectOf beforeValue).map Prod.fst ++ (objectOf afterValue).map Prod.fst)
    if childKeys.size = 0 && !basePath.isEmpty then results.add basePath
    else childKeys.toList.foldl (fun results key =>
      collectReadableDiffPaths ((objectOf beforeValue).lookup key)
        ((objectOf afterValue).lookup key) (stepText basePath (.key key)) results) results
  else if !basePath.isEmpty then results.add basePath
  else results
termination_by weight beforeValue + weight afterValue
decreasing_by
  · rcases Bool.or_eq_true_iff.mp harray with h | h
    · exact Nat.add_lt_add_of_lt_of_le (weight_item_lt h _) (weight_item_le _ _)
    · exact Nat.add_lt_add_of_le_of_lt (weight_item_le _ _) (weight_item_lt h _)
  · rcases Bool.or_eq_true_iff.mp _hobject with h | h
    · exact Nat.add_lt_add_of_lt_of_le (weight_member_lt h _) (weight_member_le _ _)
    · exact Nat.add_lt_add_of_le_of_lt (weight_member_le _ _) (weight_member_lt h _)

/-! ## Places -/

/-- What is one step below, `undefined` when there is nothing. -/
def child (v : JsValue) : PathStep → JsValue
  | .index i => (arrayOf v)[i]?
  | .key name => (objectOf v).lookup name

/-- What is at a place. -/
def valueAt (v : JsValue) (path : ValuePath) : JsValue := path.foldl child v

/-- How a place is written. -/
def textOf (path : ValuePath) : JSString := path.foldl stepText ""

/-- **Deep equality**; the members of an object have no order. -/
inductive DeepEqual : JsValue → JsValue → Prop
  | scalar {a b : JsValue} (h : objectIs a b = true) : DeepEqual a b
  | array {items items' : List Json} (h : ∀ i : ℕ, DeepEqual items[i]? items'[i]?) :
      DeepEqual (some (.array items)) (some (.array items'))
  | object {fields fields' : List (JSString × Json)}
      (h : ∀ name, DeepEqual (fields.lookup name) (fields'.lookup name)) :
      DeepEqual (some (.object fields)) (some (.object fields'))

/-- The steps that the comparison takes from two values. -/
def childSteps (a b : JsValue) : List PathStep :=
  if isArray a || isArray b then
    (List.range (max (arrayOf a).length (arrayOf b).length)).map .index
  else ((objectOf a).map Prod.fst ++ (objectOf b).map Prod.fst).map .key

/-- **The places that are recorded**: where the values are not the same and nothing is below. -/
inductive Recorded : JsValue → JsValue → ValuePath → Prop
  | here {a b : JsValue} (hne : objectIs a b = false) (hstop : childSteps a b = []) :
      Recorded a b []
  | deeper {a b : JsValue} {step : PathStep} {path : ValuePath} (hne : objectIs a b = false)
      (hstep : step ∈ childSteps a b) (h : Recorded (child a step) (child b step) path) :
      Recorded a b (step :: path)

variable {a b : JsValue} {basePath p : JSString} {results : LinkedSet JSString} {path : ValuePath}

theorem recorded_iff : Recorded a b path ↔ objectIs a b = false ∧
    ((childSteps a b = [] ∧ path = [])
      ∨ ∃ step ∈ childSteps a b, ∃ rest, path = step :: rest ∧
          Recorded (child a step) (child b step) rest) := by
  constructor
  · rintro (⟨hne, hstop⟩ | ⟨hne, hstep, h⟩)
    · exact ⟨hne, .inl ⟨hstop, rfl⟩⟩
    · exact ⟨hne, .inr ⟨_, hstep, _, rfl, h⟩⟩
  · rintro ⟨hne, ⟨hstop, rfl⟩ | ⟨step, hstep, rest, rfl, h⟩⟩
    · exact .here hne hstop
    · exact .deeper hne hstep h

/-- Adding what depends on the elements of a list. -/
theorem mem_foldl_of {α : Type*} {g : LinkedSet JSString → α → LinkedSet JSString} {Q : α → Prop}
    {l : List α} (h : ∀ x ∈ l, ∀ results, p ∈ g results x ↔ p ∈ results ∨ Q x) :
    p ∈ l.foldl g results ↔ p ∈ results ∨ ∃ x ∈ l, Q x := by
  induction l generalizing results with
  | nil => simp
  | cons x l ih =>
    rw [foldl_cons, ih fun y hy => h y (mem_cons_of_mem x hy),
      h x mem_cons_self, exists_mem_cons_iff, or_assoc]

theorem scalars_of_objectIs (h : objectIs a b = true) : (isArray a = false ∧ isArray b = false)
    ∧ isPlainDiffObject a = false ∧ isPlainDiffObject b = false := by
  unfold objectIs at h
  split at h <;> simp_all [isArray, isPlainDiffObject]

theorem mem_childSteps_index {i : ℕ} : .index i ∈ childSteps a b ↔
    (isArray a = true ∨ isArray b = true) ∧ i < max (arrayOf a).length (arrayOf b).length := by
  rw [childSteps, ← Bool.or_eq_true_iff]
  split
  · rename_i h
    simp [h]
  · rename_i h
    simp [h]

theorem mem_childSteps_key : .key name ∈ childSteps a b ↔ (isArray a = false ∧ isArray b = false)
      ∧ (name ∈ (objectOf a).map Prod.fst ∨ name ∈ (objectOf b).map Prod.fst) := by
  rw [childSteps, ← Bool.or_eq_false_iff]
  split
  · rename_i h
    simp [h]
  · rename_i h
    rw [Bool.not_eq_true] at h
    simp [h]

theorem weight_child_lt {step : PathStep} (hstep : step ∈ childSteps a b) :
    weight (child a step) + weight (child b step) < weight a + weight b := by
  have hobject : ∀ {v : JsValue} {name : JSString}, name ∈ (objectOf v).map Prod.fst →
      isPlainDiffObject v = true := fun {v name} hname => by
    by_contra h
    rw [Bool.not_eq_true] at h
    rw [objectOf_eq_nil h] at hname
    exact nomatch hname
  cases step with
  | index i =>
    rcases (mem_childSteps_index.mp hstep).1 with h | h
    · exact Nat.add_lt_add_of_lt_of_le (weight_item_lt h i) (weight_item_le b i)
    · exact Nat.add_lt_add_of_le_of_lt (weight_item_le a i) (weight_item_lt h i)
  | key name =>
    rcases (mem_childSteps_key.mp hstep).2 with h | h
    · exact Nat.add_lt_add_of_lt_of_le (weight_member_lt (hobject h) name) (weight_member_le b name)
    · exact Nat.add_lt_add_of_le_of_lt (weight_member_le a name) (weight_member_lt (hobject h) name)

/-- One step of the comparison, by the steps it takes. -/
theorem collectReadableDiffPaths_eq (a b : JsValue) (basePath : JSString)
    (results : LinkedSet JSString) :
    ∃ steps : List PathStep, (∀ x, x ∈ steps ↔ x ∈ childSteps a b) ∧
      collectReadableDiffPaths a b basePath results
        = if objectIs a b then results
          else if steps = [] then (if basePath.isEmpty then results else results.add basePath)
          else steps.foldl (fun results step => collectReadableDiffPaths (child a step)
            (child b step) (stepText basePath step) results) results := by
  rw [collectReadableDiffPaths]
  have hand : ∀ n : ℕ, (n = 0 && !basePath.isEmpty) = true ↔ n = 0 ∧ basePath.isEmpty = false := by
    simp
  by_cases harray : (isArray a || isArray b) = true
  · refine ⟨childSteps a b, fun x => Iff.rfl, ?_⟩
    rw [childSteps, if_pos harray, dif_pos harray, foldl_map]
    refine if_congr Iff.rfl rfl ?_
    simp only [map_eq_nil_iff, range_eq_nil, hand]
    by_cases hlength : max (arrayOf a).length (arrayOf b).length = 0
    · cases hempty : basePath.isEmpty <;> simp [hlength]
    · rw [if_neg fun h => hlength h.1, if_neg hlength]
      rfl
  · rw [dif_neg harray]
    let keys := ofList ((objectOf a).map Prod.fst ++ (objectOf b).map Prod.fst)
    refine ⟨keys.toList.map .key, fun x => ?_, ?_⟩
    · rw [childSteps, if_neg harray, mem_map, mem_map]
      simp only [← mem_def, keys, mem_ofList]
    · refine if_congr Iff.rfl rfl ?_
      by_cases hobject : (isPlainDiffObject a || isPlainDiffObject b) = true
      · rw [dif_pos hobject, foldl_map]
        simp only [map_eq_nil_iff, hand]
        by_cases hsize : keys.toList = []
        · have hsize' : keys.size = 0 := by rw [size, hsize]; rfl
          cases hempty : basePath.isEmpty <;> simp [keys, hsize, hsize']
        · rw [if_neg fun h => hsize (length_eq_zero_iff.mp h.1), if_neg hsize]
          rfl
      · rw [dif_neg hobject]
        rw [Bool.or_eq_true_iff, not_or, Bool.not_eq_true, Bool.not_eq_true] at hobject
        have hkeys : keys.toList = [] := by
          simp only [keys, objectOf_eq_nil hobject.1, objectOf_eq_nil hobject.2]
          rfl
        cases hempty : basePath.isEmpty <;> simp [hkeys]

/-- **What is recorded**, but for what is written as the empty path. -/
theorem mem_collectReadableDiffPaths :
    p ∈ collectReadableDiffPaths a b basePath results ↔ p ∈ results ∨
      ∃ path, Recorded a b path ∧ path.foldl stepText basePath = p ∧ p.isEmpty = false := by
  induction hn : weight a + weight b using Nat.strong_induction_on
    generalizing a b basePath results with
  | _ n ih =>
  obtain ⟨steps, hsteps, heq⟩ := collectReadableDiffPaths_eq a b basePath results
  rw [heq]
  split
  · rename_i his
    have hnone : ∀ path, ¬Recorded a b path := fun path h => by
      rw [recorded_iff, his] at h
      exact nomatch h.1
    simp [hnone]
  · rename_i hne
    rw [Bool.not_eq_true] at hne
    split
    · rename_i hnil
      have hstop : childSteps a b = [] :=
        eq_nil_iff_forall_not_mem.mpr fun x hx => by simpa [hnil] using (hsteps x).mpr hx
      have honly : ∀ path, Recorded a b path ↔ path = [] := fun path => by
        rw [recorded_iff, hstop]
        simp [hne]
      simp only [honly, exists_eq_left, foldl_nil]
      split
      · rename_i hempty
        refine ⟨.inl, ?_⟩
        rintro (hmem | ⟨rfl, htext⟩)
        · exact hmem
        · exact nomatch hempty.symm.trans htext
      · rename_i hempty
        rw [Bool.not_eq_true] at hempty
        rw [mem_add, or_comm]
        refine or_congr Iff.rfl ⟨?_, fun h => h.1.symm⟩
        rintro rfl
        exact ⟨rfl, hempty⟩
    · rename_i hsome
      rw [mem_foldl_of (Q := fun step => ∃ path, Recorded (child a step) (child b step) path ∧
        path.foldl stepText (stepText basePath step) = p ∧ p.isEmpty = false)]
      · refine or_congr Iff.rfl ?_
        constructor
        · rintro ⟨step, hstep, path, h, htext⟩
          exact ⟨step :: path, .deeper hne ((hsteps step).mp hstep) h, htext⟩
        · rintro ⟨path, h, htext⟩
          obtain ⟨-, ⟨hstop, rfl⟩ | ⟨step, hstep, rest, rfl, hrest⟩⟩ := recorded_iff.mp h
          · exact absurd (eq_nil_iff_forall_not_mem.mpr fun x hx => by
              simpa [hstop] using (hsteps x).mp hx) hsome
          · exact ⟨step, (hsteps step).mpr hstep, rest, hrest, htext⟩
      · intro step hstep results
        exact ih _ (hn ▸ weight_child_lt ((hsteps step).mp hstep)) rfl

/-! ## What differs -/

theorem isArray_of_child {i : ℕ} (h : child v (.index i) ≠ none) :
    isArray v = true ∧ i < (arrayOf v).length := by
  refine ⟨?_, Nat.lt_of_not_le fun hle => h (getElem?_eq_none hle)⟩
  by_contra hnot
  exact h (by rw [child, arrayOf_eq_nil (Bool.eq_false_iff.mpr hnot), getElem?_nil])

theorem isObject_of_child (h : child v (.key name) ≠ none) :
    isPlainDiffObject v = true ∧ name ∈ (objectOf v).map Prod.fst := by
  obtain ⟨item, hitem⟩ := Option.ne_none_iff_exists'.mp h
  refine ⟨?_, mem_map_of_mem (mem_of_lookup hitem)⟩
  by_contra hnot
  exact h (by rw [child, objectOf_eq_nil (Bool.eq_false_iff.mpr hnot), lookup_nil])

theorem isArray_eq_false_of_object (h : isPlainDiffObject v = true) :
    isArray v = false := by
  unfold isPlainDiffObject at h
  split at h
  · rfl
  · exact nomatch h

theorem child_ne_none_of_mem
    (h : name ∈ (objectOf v).map Prod.fst) : child v (.key name) ≠ none := by
  intro hnone
  obtain ⟨e, he, rfl⟩ := mem_map.mp h
  have hne := lookup_eq_none_iff.mp hnone e he
  exact absurd hne (by simp)

theorem valueAt_none (path : ValuePath) : valueAt none path = none := by
  induction path with
  | nil => rfl
  | cons step path ih =>
    have hnone : child none step = none := by cases step <;> rfl
    rw [valueAt, foldl_cons, hnone]
    exact ih

theorem not_deepEqual_none (h : v ≠ none) :
    ¬DeepEqual v none ∧ ¬DeepEqual none v := by
  constructor
  · rintro ⟨his⟩
    cases v with
    | none => exact h rfl
    | some v => cases v <;> exact absurd his (by simp [objectIs])
  · rintro ⟨his⟩
    cases v with
    | none => exact h rfl
    | some v => cases v <;> exact absurd his (by simp [objectIs])

theorem DeepEqual.refl (v : JsValue) : DeepEqual v v := by
  induction hn : weight v using Nat.strong_induction_on generalizing v with
  | _ n ih =>
  by_cases his : objectIs v v = true
  · exact .scalar his
  · cases harray : isArray v with
    | true =>
      rw [eq_of_isArray harray]
      exact .array fun i => ih _ (hn ▸ weight_item_lt harray i) _ rfl
    | false =>
      cases hobject : isPlainDiffObject v with
      | true =>
        rw [eq_of_isPlainDiffObject hobject]
        exact .object fun name => ih _ (hn ▸ weight_member_lt hobject name) _ rfl
      | false =>
        refine absurd ?_ his
        rcases v with _ | v
        · rfl
        · cases v <;> simp_all [objectIs, isArray, isPlainDiffObject]

/-- Equal values are equal everywhere. -/
theorem DeepEqual.valueAt (h : DeepEqual a b) (path : ValuePath) :
    DeepEqual (valueAt a path) (valueAt b path) := by
  induction path generalizing a b with
  | nil => exact h
  | cons step path ih =>
    refine ih ?_
    cases h with
    | scalar his =>
      obtain ⟨⟨ha, hb⟩, ha', hb'⟩ := scalars_of_objectIs his
      cases step with
      | index i =>
        rw [child, child, arrayOf_eq_nil ha, arrayOf_eq_nil hb]
        exact .scalar rfl
      | key name =>
        rw [child, child, objectOf_eq_nil ha', objectOf_eq_nil hb']
        exact .scalar rfl
    | array h =>
      cases step with
      | index i => exact h i
      | key name => exact .scalar rfl
    | object h =>
      cases step with
      | index i => exact .scalar rfl
      | key name => exact h name

/-- Two empty containers of one kind. -/
def BothEmpty (a b : JsValue) : Prop :=
  (a = some (.array []) ∧ b = some (.array [])) ∨ (a = some (.object []) ∧ b = some (.object []))

/-- An empty array on one side and an object on the other. -/
def Faces (a b : JsValue) : Prop :=
  (a = some (.array []) ∧ isPlainDiffObject b = true)
    ∨ (isPlainDiffObject a = true ∧ b = some (.array []))

/-- Where the comparison stops, the values differ or are two empty containers. -/
theorem bothEmpty_of_stop (hne : objectIs a b = false) (hstop : childSteps a b = [])
    (h : DeepEqual a b) : BothEmpty a b := by
  cases h with
  | scalar his => exact nomatch hne.symm.trans his
  | @array items items' _ =>
    have hlength : max items.length items'.length = 0 := by
      simpa [childSteps, isArray, arrayOf] using hstop
    obtain ⟨hitems, hitems'⟩ := Nat.max_eq_zero_iff.mp hlength
    rw [length_eq_zero_iff.mp hitems, length_eq_zero_iff.mp hitems']
    exact .inl ⟨rfl, rfl⟩
  | @object fields fields' _ =>
    have hnil : fields = [] ∧ fields' = [] := by simpa [childSteps, isArray, objectOf] using hstop
    rw [hnil.1, hnil.2]
    exact .inr ⟨rfl, rfl⟩

/-- **What is recorded** differs there, or both have an empty container. -/
theorem Recorded.bothEmpty_or (h : Recorded a b path) :
    BothEmpty (valueAt a path) (valueAt b path) ∨ ¬DeepEqual (valueAt a path) (valueAt b path) := by
  induction h with
  | here hne hstop =>
    exact or_iff_not_imp_right.mpr fun hequal => bothEmpty_of_stop hne hstop (not_not.mp hequal)
  | deeper _ _ _ ih => exact ih

/-- **Where both have an empty container**, it is recorded. -/
theorem recorded_of_bothEmpty (h : BothEmpty (valueAt a path) (valueAt b path)) :
    Recorded a b path := by
  induction path generalizing a b with
  | nil =>
    rcases h with ⟨ha, hb⟩ | ⟨ha, hb⟩
    · obtain rfl : a = _ := ha
      obtain rfl : b = _ := hb
      exact .here rfl rfl
    · obtain rfl : a = _ := ha
      obtain rfl : b = _ := hb
      exact .here rfl rfl
  | cons step path ih =>
    have hsome : child a step ≠ none ∧ child b step ≠ none := by
      constructor
      · intro hnone
        rw [valueAt, foldl_cons, hnone, ← valueAt, valueAt_none] at h
        rcases h with ⟨ha, -⟩ | ⟨ha, -⟩ <;> exact nomatch ha
      · intro hnone
        rw [valueAt, valueAt, foldl_cons, foldl_cons, hnone, ← valueAt, ← valueAt,
          valueAt_none] at h
        rcases h with ⟨-, hb⟩ | ⟨-, hb⟩ <;> exact nomatch hb
    cases step with
    | index i =>
      obtain ⟨ha, hlt⟩ := isArray_of_child hsome.1
      refine .deeper (Bool.eq_false_iff.mpr fun his => ?_)
        (mem_childSteps_index.mpr ⟨.inl ha, Nat.lt_of_lt_of_le hlt (Nat.le_max_left _ _)⟩) (ih h)
      exact nomatch (scalars_of_objectIs his).1.1.symm.trans ha
    | key name =>
      obtain ⟨ha, hmem⟩ := isObject_of_child hsome.1
      obtain ⟨hb, -⟩ := isObject_of_child hsome.2
      refine .deeper (Bool.eq_false_iff.mpr fun his => ?_) (mem_childSteps_key.mpr
        ⟨⟨isArray_eq_false_of_object ha, isArray_eq_false_of_object hb⟩, .inl hmem⟩) (ih h)
      exact nomatch (scalars_of_objectIs his).2.1.symm.trans ha

theorem deepEqual_of_items (ha : isArray a = true) (hb : isArray b = true)
    (h : ∀ i, DeepEqual (child a (.index i)) (child b (.index i))) : DeepEqual a b := by
  rw [eq_of_isArray ha, eq_of_isArray hb]
  exact .array h

theorem deepEqual_of_members (ha : isPlainDiffObject a = true) (hb : isPlainDiffObject b = true)
    (h : ∀ name, DeepEqual (child a (.key name)) (child b (.key name))) : DeepEqual a b := by
  rw [eq_of_isPlainDiffObject ha, eq_of_isPlainDiffObject hb]
  exact .object h

/-- Where the comparison goes on and nothing below differs, nothing does. -/
theorem deepEqual_of_children (hsteps : childSteps a b ≠ [])
    (h : ∀ step ∈ childSteps a b, DeepEqual (child a step) (child b step)) : DeepEqual a b := by
  -- what is below one of the two is below the other
  have hboth : ∀ step ∈ childSteps a b, child a step ≠ none ↔ child b step ≠ none := by
    intro step hstep
    have hequal := h step hstep
    constructor
    · intro hne hnone
      rw [hnone] at hequal
      exact (not_deepEqual_none hne).1 hequal
    · intro hne hnone
      rw [hnone] at hequal
      exact (not_deepEqual_none hne).2 hequal
  obtain ⟨step, hstep⟩ := exists_mem_of_ne_nil _ hsteps
  cases step with
  | index i =>
    have hlt := (mem_childSteps_index.mp hstep).2
    have hsome : child a (.index i) ≠ none ∧ child b (.index i) ≠ none := by
      rcases (show i < _ ∨ i < _ by omega : i < (arrayOf a).length ∨ i < (arrayOf b).length)
        with hlt | hlt
      · have hne : child a (.index i) ≠ none := by simpa [child] using hlt
        exact ⟨hne, (hboth _ hstep).mp hne⟩
      · have hne : child b (.index i) ≠ none := by simpa [child] using hlt
        exact ⟨(hboth _ hstep).mpr hne, hne⟩
    have harray := isArray_of_child hsome.1
    refine deepEqual_of_items harray.1 (isArray_of_child hsome.2).1 fun j => ?_
    by_cases hmem : .index j ∈ childSteps a b
    · exact h _ hmem
    · have hnone : child a (.index j) = none ∧ child b (.index j) = none := by
        rw [mem_childSteps_index, not_and] at hmem
        have hle := hmem (.inl harray.1)
        simp only [child, List.getElem?_eq_none_iff]
        omega
      rw [hnone.1, hnone.2]
      exact .scalar rfl
  | key name =>
    obtain ⟨⟨ha, hb⟩, hname⟩ := mem_childSteps_key.mp hstep
    have hsome : child a (.key name) ≠ none ∧ child b (.key name) ≠ none := by
      rcases hname with hname | hname
      · have hne := child_ne_none_of_mem hname
        exact ⟨hne, (hboth _ hstep).mp hne⟩
      · have hne := child_ne_none_of_mem hname
        exact ⟨(hboth _ hstep).mpr hne, hne⟩
    refine deepEqual_of_members (isObject_of_child hsome.1).1 (isObject_of_child hsome.2).1
      fun name' => ?_
    by_cases hmem : .key name' ∈ childSteps a b
    · exact h _ hmem
    · have hnot : name' ∉ (objectOf a).map Prod.fst ∧ name' ∉ (objectOf b).map Prod.fst := by
        rw [← not_or]
        exact fun hor => hmem (mem_childSteps_key.mpr ⟨⟨ha, hb⟩, hor⟩)
      have hnone : child a (.key name') = none ∧ child b (.key name') = none :=
        ⟨not_not.mp fun hne => hnot.1 (isObject_of_child hne).2,
          not_not.mp fun hne => hnot.2 (isObject_of_child hne).2⟩
      rw [hnone.1, hnone.2]
      exact .scalar rfl

/-- **What differs** has a place that is recorded. -/
theorem exists_recorded (h : ¬DeepEqual a b) : ∃ path, Recorded a b path := by
  induction hn : weight a + weight b using Nat.strong_induction_on generalizing a b with
  | _ n ih =>
  have hne : objectIs a b = false := Bool.eq_false_iff.mpr fun his => h (.scalar his)
  by_cases hstop : childSteps a b = []
  · exact ⟨[], .here hne hstop⟩
  · obtain ⟨step, hstep, hchild⟩ : ∃ step ∈ childSteps a b,
        ¬DeepEqual (child a step) (child b step) := by
      by_contra hall
      push Not at hall
      exact h (deepEqual_of_children hstop hall)
    obtain ⟨path, hpath⟩ := ih _ (hn ▸ weight_child_lt hstep) hchild rfl
    exact ⟨step :: path, .deeper hne hstep hpath⟩

/-! ## What is below the top -/

theorem isEmpty_append (s t : JSString) : (s ++ t).isEmpty = (s.isEmpty && t.isEmpty) := by
  obtain ⟨_ | _⟩ := s <;> rfl

theorem stepText_index_ne (i : ℕ) : (stepText basePath (.index i)).isEmpty = false := by
  rw [stepText, isEmpty_append, show JSString.isEmpty "]" = false from rfl, Bool.and_false]

theorem stepText_ne (step : PathStep) (h : basePath.isEmpty = false) :
    (stepText basePath step).isEmpty = false := by
  cases step with
  | index i => exact stepText_index_ne i
  | key name =>
    simp only [stepText, h, Bool.false_eq_true, if_false, isEmpty_append, Bool.false_and]

theorem foldl_stepText_ne (path : ValuePath) (h : basePath.isEmpty = false) :
    (path.foldl stepText basePath).isEmpty = false := by
  induction path generalizing basePath with
  | nil => exact h
  | cons step path ih => exact ih (stepText_ne step h)

/-- The comparison does not go below an empty array that faces an object. -/
theorem Recorded.not_faces (h : Recorded a b path) {q : ValuePath} (hq : q <+: path)
    (hne : q ≠ path) : ¬Faces (valueAt a q) (valueAt b q) := by
  induction h generalizing q with
  | here _ _ => exact absurd (prefix_nil.mp hq) hne
  | @deeper a b step path _ hstep _ ih =>
    cases q with
    | nil =>
      have hstop : Faces a b → childSteps a b = [] := by
        rintro (⟨rfl, hb⟩ | ⟨ha, rfl⟩)
        · rw [childSteps, arrayOf_eq_nil (isArray_eq_false_of_object hb)]
          rfl
        · rw [childSteps, arrayOf_eq_nil (isArray_eq_false_of_object ha),
            isArray_eq_false_of_object ha]
          rfl
      intro hfaces
      rw [hstop hfaces] at hstep
      exact nomatch hstep
    | cons step' q =>
      obtain ⟨rfl, hrest⟩ := cons_prefix_cons.mp hq
      exact ih hrest fun heq => hne (congrArg _ heq)

/-- The first item of an array that faces an object. -/
theorem child_first {v w : JsValue} (hv : isPlainDiffObject v = true) (hw : isArray w = true)
    (hne : w ≠ some (.array [])) : 0 < (arrayOf w).length ∧ child v (.index 0) = none
      ∧ child w (.index 0) ≠ none := by
  have hlt : 0 < (arrayOf w).length := by
    refine length_pos_iff.mpr fun hnil => hne ?_
    rw [eq_of_isArray hw, hnil]
  refine ⟨hlt, ?_, by simpa [child] using length_pos_iff.mp hlt⟩
  rw [child, arrayOf_eq_nil (isArray_eq_false_of_object hv), getElem?_nil]

/-- Where a member is passed over, an object faces an array that has a first item. -/
theorem first_of_skipped {step : PathStep} (hstep : step ∉ childSteps a b)
    (hsome : child a step ≠ none ∨ child b step ≠ none) (hface : ¬Faces a b) :
    .index 0 ∈ childSteps a b ∧ ¬DeepEqual (child a (.index 0)) (child b (.index 0)) := by
  cases step with
  | index i =>
    refine absurd (mem_childSteps_index.mpr ?_) hstep
    rcases hsome with h | h
    · obtain ⟨ha, hlt⟩ := isArray_of_child h
      exact ⟨.inl ha, Nat.lt_of_lt_of_le hlt (Nat.le_max_left _ _)⟩
    · obtain ⟨hb, hlt⟩ := isArray_of_child h
      exact ⟨.inr hb, Nat.lt_of_lt_of_le hlt (Nat.le_max_right _ _)⟩
  | key name =>
    rw [mem_childSteps_key, not_and_or] at hstep
    rcases hsome with h | h
    · obtain ⟨ha, hname⟩ := isObject_of_child h
      have hb : isArray b = true := by
        by_contra hb
        rw [Bool.not_eq_true] at hb
        exact hstep.elim (fun h => h ⟨isArray_eq_false_of_object ha, hb⟩) fun h => h (.inl hname)
      obtain ⟨hlt, hnone, hsome⟩ := child_first ha hb fun heq => hface (.inr ⟨ha, heq⟩)
      rw [hnone]
      exact ⟨mem_childSteps_index.mpr ⟨.inr hb, Nat.lt_of_lt_of_le hlt (Nat.le_max_right _ _)⟩,
        (not_deepEqual_none hsome).2⟩
    · obtain ⟨hb, hname⟩ := isObject_of_child h
      have ha : isArray a = true := by
        by_contra ha
        rw [Bool.not_eq_true] at ha
        exact hstep.elim (fun h => h ⟨ha, isArray_eq_false_of_object hb⟩) fun h => h (.inr hname)
      obtain ⟨hlt, hnone, hsome⟩ := child_first hb ha fun heq => hface (.inl ⟨heq, hb⟩)
      rw [hnone]
      exact ⟨mem_childSteps_index.mpr ⟨.inl ha, Nat.lt_of_lt_of_le hlt (Nat.le_max_left _ _)⟩,
        (not_deepEqual_none hsome).1⟩

/-- **A difference below the top is recorded**, there or near it, unless it is below an empty array
that faces an object. -/
theorem exists_recorded_below
    (hdiffer : ¬DeepEqual (valueAt a path) (valueAt b path))
    (htext : (path.foldl stepText basePath).isEmpty = false)
    (hfaces : ∀ q, q <+: path → q ≠ path → ¬Faces (valueAt a q) (valueAt b q)) :
    ∃ path', Recorded a b path' ∧ (path'.foldl stepText basePath).isEmpty = false := by
  induction path generalizing a b basePath with
  | nil =>
    obtain ⟨path', hpath'⟩ := exists_recorded hdiffer
    exact ⟨path', hpath', foldl_stepText_ne path' htext⟩
  | cons step path ih =>
    have hbelow : ∀ step' ∈ childSteps a b, ∀ path',
        Recorded (child a step') (child b step') path' → Recorded a b (step' :: path') := by
      intro step' hstep' path' h
      refine .deeper (Bool.eq_false_iff.mpr fun his => ?_) hstep' h
      obtain ⟨⟨ha, hb⟩, ha', hb'⟩ := scalars_of_objectIs his
      rw [childSteps, ha, hb, objectOf_eq_nil ha', objectOf_eq_nil hb'] at hstep'
      exact nomatch hstep'
    by_cases hstep : step ∈ childSteps a b
    · obtain ⟨path', hpath', htext'⟩ := ih hdiffer htext fun q hq hne =>
        hfaces (step :: q) (cons_prefix_cons.mpr ⟨rfl, hq⟩) fun heq =>
          hne (List.cons.inj heq).2
      exact ⟨step :: path', hbelow step hstep path' hpath', htext'⟩
    · -- an object faces an array that is not empty, whose first item is recorded
      have hnone : child a step ≠ none ∨ child b step ≠ none := by
        by_contra hnone
        rw [not_or, not_not, not_not] at hnone
        rw [valueAt, valueAt, foldl_cons, foldl_cons, hnone.1, hnone.2] at hdiffer
        rw [← valueAt, valueAt_none] at hdiffer
        exact hdiffer (.scalar rfl)
      obtain ⟨hfirst, hchild⟩ := first_of_skipped hstep hnone (hfaces [] nil_prefix (by simp))
      obtain ⟨path', hpath'⟩ := exists_recorded hchild
      exact ⟨.index 0 :: path', hbelow _ hfirst path' hpath',
        foldl_stepText_ne path' (stepText_index_ne 0)⟩

/-! ## Exactness -/

/-- **The paths are exact**: none of equal values; of others only such as differ, and at least
one. -/
def DiffIsExact (a b : Json) : Prop :=
  (DeepEqual (some a) (some b) → ∀ p, p ∉ collectReadableDiffPaths (some a) (some b) "" ∅) ∧
    (¬DeepEqual (some a) (some b) →
      (∀ p ∈ collectReadableDiffPaths (some a) (some b) "" ∅, ∃ path, textOf path = p ∧
        ¬DeepEqual (valueAt (some a) path) (valueAt (some b) path)) ∧
      ∃ p, p ∈ collectReadableDiffPaths (some a) (some b) "" ∅)

/-- **When they are**: below the top, two empty containers of one kind stand only where the path is
also that of a difference; and values that differ have, below the top and not below an empty array
that faces an object, a difference or two such containers. -/
structure ShowsDifference (a b : JsValue) : Prop where
  covered : ∀ path, (textOf path).isEmpty = false → BothEmpty (valueAt a path) (valueAt b path) →
    ∃ path', textOf path' = textOf path ∧ ¬DeepEqual (valueAt a path') (valueAt b path')
  below : ¬DeepEqual a b → ∃ path, (textOf path).isEmpty = false ∧
    (BothEmpty (valueAt a path) (valueAt b path) ∨ ¬DeepEqual (valueAt a path) (valueAt b path)) ∧
    ∀ q, q <+: path → q ≠ path → ¬Faces (valueAt a q) (valueAt b q)

/-- What the comparison from the top records. -/
theorem mem_diff : p ∈ collectReadableDiffPaths a b "" ∅ ↔
    ∃ path, Recorded a b path ∧ textOf path = p ∧ p.isEmpty = false := by
  rw [mem_collectReadableDiffPaths, or_iff_right (notMem_empty p)]
  rfl

/-- **Exactly then.** -/
theorem diffIsExact_iff (a b : Json) : DiffIsExact a b ↔ ShowsDifference (some a) (some b) := by
  constructor
  · rintro ⟨hequal, hdiffers⟩
    constructor
    · intro path htext hempty
      have hmem := mem_diff.mpr ⟨path, recorded_of_bothEmpty hempty, rfl, htext⟩
      by_cases h : DeepEqual (some a) (some b)
      · exact absurd hmem (hequal h _)
      · exact (hdiffers h).1 _ hmem
    · intro h
      obtain ⟨p, hp⟩ := (hdiffers h).2
      obtain ⟨path, hpath, rfl, htext⟩ := mem_diff.mp hp
      exact ⟨path, htext, hpath.bothEmpty_or, fun q => hpath.not_faces⟩
  · intro h
    have hcovered : ∀ p ∈ collectReadableDiffPaths (some a) (some b) "" ∅, ∃ path,
        textOf path = p ∧ ¬DeepEqual (valueAt (some a) path) (valueAt (some b) path) := by
      intro p hp
      obtain ⟨path, hpath, rfl, htext⟩ := mem_diff.mp hp
      rcases hpath.bothEmpty_or with hempty | hdiffer
      · exact h.covered path htext hempty
      · exact ⟨path, rfl, hdiffer⟩
    refine ⟨fun hequal p hp => ?_, fun hdiffer => ⟨hcovered, ?_⟩⟩
    · obtain ⟨path, -, hdiffer⟩ := hcovered p hp
      exact hdiffer (hequal.valueAt path)
    · obtain ⟨path, htext, hempty | hdiffer, hfaces⟩ := h.below hdiffer
      · exact ⟨_, mem_diff.mpr ⟨path, recorded_of_bothEmpty hempty, rfl, htext⟩⟩
      · obtain ⟨path', hpath', htext'⟩ := exists_recorded_below hdiffer htext hfaces
        exact ⟨_, mem_diff.mpr ⟨path', hpath', rfl, htext'⟩⟩

/-- A value that holds an empty array. -/
def holdsNothing : Json := .object [("items", .array [])]

/-- The empty array is recorded where it is compared with its copy. -/
theorem not_diffIsExact_emptyArray : ¬DiffIsExact holdsNothing holdsNothing := by
  intro h
  have hrecorded : Recorded (some holdsNothing) (some holdsNothing) [.key "items"] :=
    recorded_of_bothEmpty (.inl ⟨rfl, rfl⟩)
  exact h.1 (.refl _) "items" (mem_diff.mpr ⟨_, hrecorded, rfl, rfl⟩)

end ReadableDiff

end MindooDB
