import MindooDB.Lib.JsonTree
import MindooDB.Lib.LinkedMap

/-!
# Lib/JsonFormat — typed values in JSON

A `JsonFormat` writes the values of a type as JSON values and reads them back.  An object is written
from its fields in their order, and a field that is undefined leaves no member (`members`); it is read
by the names of its members, of which one that is missing is undefined (`required`, `optional`).
-/

/-- **How the values of a type are written and read.** -/
structure JsonFormat (α : Type) where
  write : α → JsonTree
  read : JsonTree → Option α
  read_write : ∀ a, read (write a) = some a

namespace JsonFormat

open JsonTree List Option

variable {α β : Type}

def string : JsonFormat JSString where
  write := .string
  read
    | .string s => some s
    | _ => none
  read_write _ := rfl

def integer : JsonFormat ℤ where
  write := .integer
  read
    | .integer n => some n
    | _ => none
  read_write _ := rfl

/-- Values that are written as something else. -/
def iso (fmt : JsonFormat β) (text : α → β) (ofText : β → Option α)
    (h : ∀ a, ofText (text a) = some a) : JsonFormat α where
  write a := fmt.write (text a)
  read value := (fmt.read value).bind ofText
  read_write a := by rw [fmt.read_write, bind_some, h]

def list (fmt : JsonFormat α) : JsonFormat (List α) where
  write l := .array (l.map fmt.write)
  read
    | .array items => items.mapM fmt.read
    | _ => none
  read_write l := by
    induction l with
    | nil => rfl
    | cons a l ih =>
      simp only [map_cons, mapM_cons, fmt.read_write, bind_eq_bind, bind_some]
        at ih ⊢
      rw [ih]
      rfl

/-! ## Objects -/

/-- The members of an object literal: `undefined` is left out. -/
def members (fields : List (JSString × Option JsonTree)) : List (JSString × JsonTree) :=
  fields.filterMap fun f => f.2.map fun value => (f.1, value)

def required (fmt : JsonFormat α) (data : List (JSString × JsonTree)) (name : JSString) : Option α :=
  (field data name).bind fmt.read

/-- A member that may be missing. -/
def optional (fmt : JsonFormat α) (data : List (JSString × JsonTree)) (name : JSString) :
    Option (Option α) :=
  (field data name).elim (some none) fun value => (fmt.read value).map some

variable {data : List (JSString × JsonTree)}

theorem required_eq {fmt : JsonFormat α} {name : JSString} {a : α}
    (h : field data name = some (fmt.write a)) : required fmt data name = some a := by
  rw [required, h, bind_some, fmt.read_write]

theorem optional_eq {fmt : JsonFormat α} {name : JSString}
    {a : Option α} (h : field data name = a.map fmt.write) :
    optional fmt data name = some a := by
  rw [optional, h]
  cases a with
  | none => rfl
  | some a => rw [map_some, elim_some, fmt.read_write, map_some]

theorem mem_members {fields : List (JSString × Option JsonTree)} {name : JSString}
    {value : JsonTree} : (name, value) ∈ members fields ↔ (name, some value) ∈ fields := by
  simp only [members, mem_filterMap, map_eq_some_iff, Prod.mk.injEq]
  constructor
  · rintro ⟨⟨name', value'⟩, hmem, _, rfl, rfl, rfl⟩
    exact hmem
  · exact fun hmem => ⟨_, hmem, value, rfl, rfl, rfl⟩

theorem map_fst_members_sublist (fields : List (JSString × Option JsonTree)) :
    ((members fields).map Prod.fst).Sublist (fields.map Prod.fst) := by
  induction fields with
  | nil => exact List.Sublist.slnil
  | cons f fields ih =>
    rcases f with ⟨name, _ | value⟩
    · exact ih.cons name
    · exact ih.cons_cons name

/-- **The fields of an object are read by their names**, when no name is given twice. -/
theorem field_members {fields : List (JSString × Option JsonTree)}
    (hnodup : (fields.map Prod.fst).Nodup) {f : JSString × Option JsonTree} (hf : f ∈ fields) :
    field (members fields) f.1 = f.2 := by
  have hreverse : (((members fields).reverse).map Prod.fst).Nodup := by
    rw [map_reverse, nodup_reverse]
    exact hnodup.sublist (map_fst_members_sublist fields)
  rcases hlookup : field (members fields) f.1 with _ | value
  · rcases hvalue : f.2 with _ | value
    · rfl
    · have hmem : (f.1, value) ∈ (members fields).reverse :=
        mem_reverse.mpr (mem_members.mpr (hvalue ▸ hf))
      rw [field, (LinkedMap.lookup_eq_some_iff_mem hreverse).mpr hmem] at hlookup
      exact nomatch hlookup
  · rw [field, LinkedMap.lookup_eq_some_iff_mem hreverse, mem_reverse, mem_members] at hlookup
    exact (congrArg Prod.snd (inj_on_of_nodup_map hnodup hf hlookup rfl)).symm

/-- **The format of an object**: its fields, and a reader that goes by their names. -/
def object (fields : α → List (JSString × Option JsonTree))
    (read : List (JSString × JsonTree) → Option α) (nodup : ∀ a, ((fields a).map Prod.fst).Nodup)
    (h : ∀ a data, (∀ f ∈ fields a, field data f.1 = f.2) → read data = some a) :
    JsonFormat α where
  write a := .object (members (fields a))
  read
    | .object data => read data
    | _ => none
  read_write a := h a _ fun _ hf => field_members (nodup a) hf

end JsonFormat
