import Mathlib

/-!
# Lib/LinkedMap — maps and sets that remember insertion order

`LinkedMap κ ν` is a finite map listing its bindings in the order their keys were first inserted:
`set` overwrites a binding where it stands, a new key goes to the end, and a deleted key that comes
back goes to the end again.  Keys are distinct by construction (`nodupKeys`), so a lookup and a
membership in the list are the same fact (`mem_toList_iff`).

`LinkedSet α` is the same discipline for a set.
-/

/-- **A map in insertion order.** -/
structure LinkedMap (κ ν : Type*) where
  toList : List (κ × ν)
  nodupKeys : (toList.map Prod.fst).Nodup

namespace LinkedMap

open List

variable {κ ν : Type*}

variable {m : LinkedMap κ ν}

@[ext] theorem ext {m' : LinkedMap κ ν} (h : m.toList = m'.toList) : m = m' := by
  cases m; cases m'; cases h; rfl

instance [DecidableEq κ] [DecidableEq ν] : DecidableEq (LinkedMap κ ν) := fun m m' =>
  decidable_of_iff (m.toList = m'.toList) ⟨LinkedMap.ext, congrArg _⟩

/-- The keys, in insertion order. -/
def keys (m : LinkedMap κ ν) : List κ := m.toList.map Prod.fst

/-- The values, in insertion order of their keys. -/
def values (m : LinkedMap κ ν) : List ν := m.toList.map Prod.snd

def size (m : LinkedMap κ ν) : ℕ := m.toList.length

def empty : LinkedMap κ ν := ⟨[], nodup_nil⟩

instance : EmptyCollection (LinkedMap κ ν) := ⟨empty⟩

instance : Inhabited (LinkedMap κ ν) := ⟨∅⟩

@[simp] theorem toList_empty : (∅ : LinkedMap κ ν).toList = [] := rfl

@[simp] theorem keys_empty : (∅ : LinkedMap κ ν).keys = [] := rfl

@[simp] theorem values_empty : (∅ : LinkedMap κ ν).values = [] := rfl

theorem nodup_keys (m : LinkedMap κ ν) : m.keys.Nodup := m.nodupKeys

@[simp] theorem length_keys (m : LinkedMap κ ν) : m.keys.length = m.size := length_map _

@[simp] theorem length_values (m : LinkedMap κ ν) : m.values.length = m.size := length_map _

section Lookup

variable [DecidableEq κ]

/-- The value bound to a key. -/
def get? (m : LinkedMap κ ν) (k : κ) : Option ν := m.toList.lookup k

/-- Whether a key is bound. -/
def has (m : LinkedMap κ ν) (k : κ) : Bool := (m.get? k).isSome

theorem lookup_cons_eq_ite (a : κ) (b : ν) (l : List (κ × ν)) (k : κ) :
    List.lookup k ((a, b) :: l) = if k = a then some b else List.lookup k l := by
  by_cases h : k = a
  · simp [h]
  · rw [lookup_cons, beq_false_of_ne h, if_neg h]

variable {l : List (κ × ν)} {v : ν}

theorem lookup_eq_some_iff_mem (hl : (l.map Prod.fst).Nodup) {k : κ} :
    l.lookup k = some v ↔ (k, v) ∈ l := by
  induction l with
  | nil => simp
  | cons p l ih =>
    obtain ⟨k', v'⟩ := p
    obtain ⟨hk', hl'⟩ := nodup_cons.mp hl
    by_cases h : k = k'
    · subst h
      have hnot : ∀ w, (k, w) ∉ l := fun w hw => hk' (mem_map.mpr ⟨(k, w), hw, rfl⟩)
      simp [hnot, eq_comm]
    · simp [lookup_cons_eq_ite, h, ih hl']

variable {k : κ}

/-- **A binding is listed exactly when it is found.** -/
theorem mem_toList_iff :
    (k, v) ∈ m.toList ↔ m.get? k = some v :=
  (lookup_eq_some_iff_mem m.nodupKeys).symm

theorem mem_keys_iff : k ∈ m.keys ↔ ∃ v, m.get? k = some v := by
  simp only [keys, mem_map, Prod.exists, exists_and_right, exists_eq_right, mem_toList_iff]

theorem has_iff : m.has k = true ↔ ∃ v, m.get? k = some v :=
  Option.isSome_iff_exists

@[simp] theorem has_eq_false_iff :
    m.has k = false ↔ m.get? k = none := by simp [has]

theorem mem_keys_iff_has : k ∈ m.keys ↔ m.has k = true :=
  mem_keys_iff.trans has_iff.symm

theorem notMem_keys_iff : k ∉ m.keys ↔ m.get? k = none := by
  rw [mem_keys_iff_has, Bool.not_eq_true, has_eq_false_iff]

theorem mem_values_iff : v ∈ m.values ↔ ∃ k, m.get? k = some v := by
  simp only [values, mem_map, Prod.exists, exists_eq_right, mem_toList_iff]

@[simp] theorem get?_empty (k : κ) : (∅ : LinkedMap κ ν).get? k = none := rfl

@[simp] theorem has_empty (k : κ) : (∅ : LinkedMap κ ν).has k = false := rfl

/-! ## Setting a binding -/

/-- `set`, on the listing. -/
def setList (k : κ) (v : ν) : List (κ × ν) → List (κ × ν)
  | [] => [(k, v)]
  | p :: l => if p.1 = k then (k, v) :: l else p :: setList k v l

theorem map_fst_setList (k : κ) (v : ν) (l : List (κ × ν)) :
    (setList k v l).map Prod.fst
      = if k ∈ l.map Prod.fst then l.map Prod.fst else l.map Prod.fst ++ [k] := by
  induction l with
  | nil => rfl
  | cons p l ih =>
    by_cases h : p.1 = k
    · simp [setList, h]
    · have hk : k ≠ p.1 := Ne.symm h
      simp only [setList, h, if_false, map_cons, ih, mem_cons, hk, false_or]
      split <;> rfl

theorem nodup_setList (k : κ) (v : ν) {l : List (κ × ν)} (hl : (l.map Prod.fst).Nodup) :
    ((setList k v l).map Prod.fst).Nodup := by
  rw [map_fst_setList]
  split
  · exact hl
  · rename_i hk
    exact nodup_append.mpr ⟨hl, nodup_singleton k, fun a ha b hb => by
      obtain rfl := mem_singleton.mp hb
      exact fun hab => hk (hab ▸ ha)⟩

/-- Bind `k` to `v`: in place when `k` is already bound, at the end otherwise. -/
def set (m : LinkedMap κ ν) (k : κ) (v : ν) : LinkedMap κ ν :=
  ⟨setList k v m.toList, nodup_setList k v m.nodupKeys⟩

theorem lookup_setList (k : κ) (v : ν) (k' : κ) (l : List (κ × ν)) :
    (setList k v l).lookup k' = if k' = k then some v else l.lookup k' := by
  induction l with
  | nil => simp [setList, lookup_cons_eq_ite]
  | cons p l ih =>
    obtain ⟨a, b⟩ := p
    by_cases h : a = k
    · subst h
      by_cases h' : k' = a <;> simp [setList, lookup_cons_eq_ite, h']
    · by_cases h' : k' = a
      · subst h'
        simp [setList, h]
      · simp [setList, lookup_cons_eq_ite, h, h', ih]

theorem get?_set (m : LinkedMap κ ν) (k : κ) (v : ν) (k' : κ) :
    (m.set k v).get? k' = if k' = k then some v else m.get? k' :=
  lookup_setList k v k' m.toList

@[simp] theorem get?_set_self (m : LinkedMap κ ν) (k : κ) (v : ν) :
    (m.set k v).get? k = some v := by simp [get?_set]

theorem get?_set_of_ne (m : LinkedMap κ ν) {k' : κ} (v : ν) (h : k' ≠ k) :
    (m.set k v).get? k' = m.get? k' := by simp [get?_set, h]

theorem has_set (m : LinkedMap κ ν) (k : κ) (v : ν) (k' : κ) :
    (m.set k v).has k' = (decide (k' = k) || m.has k') := by
  rw [has, get?_set, has]
  by_cases h : k' = k <;> simp [h]

/-- `if (!m.has(k)) m.set(k, v)` binds `k`, one way or the other. -/
theorem has_set_of_absent (m : LinkedMap κ ν) (k : κ) (v : ν) (k' : κ) :
    (if m.has k then m else m.set k v).has k' = (decide (k' = k) || m.has k') := by
  split
  · rename_i h
    by_cases hk : k' = k <;> simp [hk, h]
  · exact has_set m k v k'

theorem keys_set (m : LinkedMap κ ν) (k : κ) (v : ν) :
    (m.set k v).keys = if k ∈ m.keys then m.keys else m.keys ++ [k] :=
  map_fst_setList k v m.toList

theorem mem_keys_set (m : LinkedMap κ ν) (k : κ) (v : ν) (k' : κ) :
    k' ∈ (m.set k v).keys ↔ k' = k ∨ k' ∈ m.keys := by
  rw [keys_set]
  split
  · exact ⟨.inr, fun h => h.elim (fun h' => h' ▸ ‹k ∈ m.keys›) id⟩
  · simp [or_comm]

theorem setList_of_notMem (k : κ) (v : ν) {l : List (κ × ν)} (h : k ∉ l.map Prod.fst) :
    setList k v l = l ++ [(k, v)] := by
  induction l with
  | nil => rfl
  | cons p l ih =>
    obtain ⟨hp, hl⟩ := ne_and_not_mem_of_not_mem_cons h
    simp [setList, Ne.symm hp, ih hl]

/-- A new key goes to the end. -/
theorem toList_set_of_notMem (m : LinkedMap κ ν) (v : ν) (h : k ∉ m.keys) :
    (m.set k v).toList = m.toList ++ [(k, v)] := setList_of_notMem k v h

theorem setList_of_mem (k : κ) (v : ν) {l : List (κ × ν)} (hl : (l.map Prod.fst).Nodup)
    (h : k ∈ l.map Prod.fst) : setList k v l = l.map fun p => if p.1 = k then (k, v) else p := by
  induction l with
  | nil => simp at h
  | cons p l ih =>
    obtain ⟨hp, hl'⟩ := nodup_cons.mp hl
    by_cases hk : p.1 = k
    · have hrest : (l.map fun q => if q.1 = k then (k, v) else q) = l.map id :=
        map_congr_left fun q hq => if_neg fun hqk =>
          hp (mem_map.mpr ⟨q, hq, hqk.trans hk.symm⟩)
      simp [setList, hk, hrest]
    · have hmem : k ∈ l.map Prod.fst := (mem_cons.mp h).resolve_left (Ne.symm hk)
      simp [setList, hk, ih hl' hmem]

/-- A key already bound keeps its place. -/
theorem toList_set_of_mem (m : LinkedMap κ ν) (v : ν) (h : k ∈ m.keys) :
    (m.set k v).toList = m.toList.map fun p => if p.1 = k then (k, v) else p :=
  setList_of_mem k v m.nodupKeys h

theorem filter_setList {k : κ} {v : ν} {p : ν → Bool} (hv : p v = false) {l : List (κ × ν)}
    (hl : ∀ w, (k, w) ∈ l → p w = false) :
    ((setList k v l).map Prod.snd).filter p = (l.map Prod.snd).filter p := by
  induction l with
  | nil => simp [setList, hv]
  | cons a l ih =>
    rw [setList]
    split
    · rename_i hk
      have ha : p a.2 = false := hl a.2 (by rw [← hk]; exact mem_cons_self)
      simp [hv, ha]
    · rw [map_cons, map_cons, filter_cons, filter_cons,
        ih fun w hw => hl w (mem_cons_of_mem _ hw)]

/-! ## Deleting a binding -/

/-- Drop the binding of `k`. -/
def delete (m : LinkedMap κ ν) (k : κ) : LinkedMap κ ν :=
  ⟨m.toList.filter fun p => p.1 ≠ k,
    m.nodupKeys.sublist (filter_sublist.map _)⟩

theorem get?_delete (m : LinkedMap κ ν) (k k' : κ) :
    (m.delete k).get? k' = if k' = k then none else m.get? k' := by
  refine Option.ext fun v => ?_
  rw [← mem_toList_iff]
  by_cases h : k' = k <;> simp [delete, h, mem_toList_iff]

@[simp] theorem get?_delete_self (m : LinkedMap κ ν) (k : κ) : (m.delete k).get? k = none := by
  simp [get?_delete]

theorem get?_delete_of_ne (m : LinkedMap κ ν) {k' : κ} (h : k' ≠ k) :
    (m.delete k).get? k' = m.get? k' := by simp [get?_delete, h]

theorem has_delete (m : LinkedMap κ ν) (k k' : κ) :
    (m.delete k).has k' = (decide (k' ≠ k) && m.has k') := by
  rw [has, get?_delete, has]
  by_cases h : k' = k <;> simp [h]

theorem keys_delete (m : LinkedMap κ ν) (k : κ) :
    (m.delete k).keys = m.keys.filter fun k' => k' ≠ k := by
  simp [keys, delete, filter_map, Function.comp_def]

theorem mem_keys_delete (m : LinkedMap κ ν) (k k' : κ) :
    k' ∈ (m.delete k).keys ↔ k' ≠ k ∧ k' ∈ m.keys := by
  simp [keys_delete, and_comm]

theorem delete_of_notMem (m : LinkedMap κ ν) (h : k ∉ m.keys) : m.delete k = m := by
  refine LinkedMap.ext (filter_eq_self.mpr fun p hp => ?_)
  have hpk : p.1 ≠ k := fun hpk => h (hpk ▸ mem_map_of_mem hp)
  simpa using hpk

theorem filter_values_delete (m : LinkedMap κ ν) {p : ν → Bool}
    (hold : ∀ w, m.get? k = some w → p w = false) :
    (m.delete k).values.filter p = m.values.filter p := by
  rw [values, values, delete, filter_map, filter_map, filter_filter]
  congr 1
  refine filter_congr fun a ha => ?_
  by_cases hk : a.1 = k
  · simpa [hk] using (hold a.2 (mem_toList_iff.mp (hk ▸ ha))).symm
  · simp [hk]

/-- **Deleting a bound key takes its binding out of the listing.** -/
theorem exists_split_delete (m : LinkedMap κ ν) (h : m.get? k = some v) :
    ∃ l₁ l₂, m.toList = l₁ ++ (k, v) :: l₂ ∧ (m.delete k).toList = l₁ ++ l₂ := by
  have hmem : (k, v) ∈ m.toList := mem_toList_iff.mpr h
  obtain ⟨l₁, l₂, hl⟩ := append_of_mem hmem
  have hnd := m.nodupKeys
  rw [hl, map_append, map_cons] at hnd
  obtain ⟨hk, -⟩ := nodup_cons.mp (perm_middle.nodup_iff.mp hnd)
  have hne : ∀ p ∈ l₁ ++ l₂, p.1 ≠ k := fun p hp hpk =>
    hk (by rw [← map_append]; exact mem_map.mpr ⟨p, hp, hpk⟩)
  have h₁ : l₁.filter (fun p => decide (p.1 ≠ k)) = l₁ := filter_eq_self.mpr fun p hp =>
    by simpa using hne p (mem_append_left _ hp)
  have h₂ : l₂.filter (fun p => decide (p.1 ≠ k)) = l₂ := filter_eq_self.mpr fun p hp =>
    by simpa using hne p (mem_append_right _ hp)
  refine ⟨l₁, l₂, hl, ?_⟩
  change m.toList.filter (fun p => decide (p.1 ≠ k)) = l₁ ++ l₂
  rw [hl, filter_append, filter_cons_of_neg (by simp), h₁, h₂]

/-- Deleting a bound key removes one value. -/
theorem values_delete_perm (m : LinkedMap κ ν) (h : m.get? k = some v) :
    (v :: (m.delete k).values).Perm m.values := by
  obtain ⟨l₁, l₂, hl, hdel⟩ := m.exists_split_delete h
  rw [values, values, hdel, hl]
  have hmid : (v :: (l₁.map Prod.snd ++ l₂.map Prod.snd)).Perm
      (l₁.map Prod.snd ++ v :: l₂.map Prod.snd) := perm_middle.symm
  simpa using hmid

/-- Build a map from a list of bindings, later ones overwriting earlier ones. -/
def ofList (l : List (κ × ν)) : LinkedMap κ ν := l.foldl (fun m p => m.set p.1 p.2) ∅

theorem foldl_set_of_nodup (l : List (κ × ν)) (m : LinkedMap κ ν)
    (h : (m.keys ++ l.map Prod.fst).Nodup) :
    (l.foldl (fun m p => m.set p.1 p.2) m).toList = m.toList ++ l := by
  induction l generalizing m with
  | nil => simp
  | cons p l ih =>
    have hp : p.1 ∉ m.keys := fun hmem => by
      simpa using (nodup_append.mp h).2.2 p.1 hmem p.1 (by simp)
    have hset := toList_set_of_notMem m p.2 hp
    have hkeys : (m.set p.1 p.2).keys = m.keys ++ [p.1] := by rw [keys_set, if_neg hp]
    rw [foldl_cons, ih _ (by rw [hkeys]; simpa using h), hset]
    simp

/-- Distinct bindings set one after the other: each is found, and nothing else changes. -/
theorem get?_foldl_set {α : Type*} (key : α → κ) (value : α → ν) {l : List α} (m : LinkedMap κ ν)
    (h : (l.map key).Nodup) :
    (∀ a ∈ l, key a = k → (l.foldl (fun m a => m.set (key a) (value a)) m).get? k = some (value a))
      ∧ ((∀ a ∈ l, key a ≠ k) →
        (l.foldl (fun m a => m.set (key a) (value a)) m).get? k = m.get? k) := by
  induction l generalizing m with
  | nil => exact ⟨nofun, fun _ => rfl⟩
  | cons b l ih =>
    obtain ⟨hb, hl⟩ := nodup_cons.mp h
    obtain ⟨hfound, hrest⟩ := ih (m.set (key b) (value b)) hl
    constructor
    · intro a ha hk
      rcases mem_cons.mp ha with rfl | ha
      · have hother : ∀ c ∈ l, key c ≠ k := fun c hc hck =>
          hb (mem_map.mpr ⟨c, hc, hck.trans hk.symm⟩)
        rw [foldl_cons, hrest hother, ← hk, get?_set_self]
      · exact hfound a ha hk
    · intro hne
      rw [foldl_cons, hrest fun a ha => hne a (mem_cons_of_mem _ ha),
        get?_set_of_ne _ _ (hne b mem_cons_self).symm]

/-- **Distinct bindings are listed as they come.** -/
theorem toList_ofList (h : (l.map Prod.fst).Nodup) : (ofList l).toList = l := by
  rw [ofList, foldl_set_of_nodup l ∅ (by simpa using h)]
  simp

theorem get?_ofList (h : (l.map Prod.fst).Nodup) :
    (ofList l).get? k = some v ↔ (k, v) ∈ l := by
  rw [← mem_toList_iff, toList_ofList h]

end Lookup

end LinkedMap

/-- **A set in insertion order.** -/
structure LinkedSet (α : Type*) where
  toList : List α
  nodup : toList.Nodup

namespace LinkedSet

open List

variable {α : Type*}

variable {s : LinkedSet α}

@[ext] theorem ext {s' : LinkedSet α} (h : s.toList = s'.toList) : s = s' := by
  cases s; cases s'; cases h; rfl

instance [DecidableEq α] : DecidableEq (LinkedSet α) := fun s s' =>
  decidable_of_iff (s.toList = s'.toList) ⟨LinkedSet.ext, congrArg _⟩

def size (s : LinkedSet α) : ℕ := s.toList.length

instance : EmptyCollection (LinkedSet α) := ⟨⟨[], nodup_nil⟩⟩

instance : Inhabited (LinkedSet α) := ⟨∅⟩

instance : Membership α (LinkedSet α) := ⟨fun s a => a ∈ s.toList⟩

theorem mem_def {a : α} : a ∈ s ↔ a ∈ s.toList := Iff.rfl

@[simp] theorem toList_empty : (∅ : LinkedSet α).toList = [] := rfl

@[simp] theorem notMem_empty (a : α) : a ∉ (∅ : LinkedSet α) := not_mem_nil

theorem size_eq_zero_iff : s.size = 0 ↔ s = ∅ :=
  ⟨fun h => LinkedSet.ext (length_eq_zero_iff.mp h), fun h => by subst h; rfl⟩

variable [DecidableEq α]

instance (s : LinkedSet α) (a : α) : Decidable (a ∈ s) :=
  inferInstanceAs (Decidable (a ∈ s.toList))

/-- Add an element, at the end when it is new. -/
def add (s : LinkedSet α) (a : α) : LinkedSet α :=
  if h : a ∈ s.toList then s else ⟨s.toList ++ [a], nodup_append.mpr
    ⟨s.nodup, nodup_singleton a, fun b hb c hc => by
      obtain rfl := mem_singleton.mp hc
      exact fun hbc => h (hbc ▸ hb)⟩⟩

/-- Remove an element. -/
def delete (s : LinkedSet α) (a : α) : LinkedSet α :=
  ⟨s.toList.filter fun b => b ≠ a, s.nodup.sublist filter_sublist⟩

theorem toList_add (s : LinkedSet α) (a : α) :
    (s.add a).toList = if a ∈ s then s.toList else s.toList ++ [a] := by
  unfold add
  split <;> simp_all [mem_def]

@[simp] theorem mem_add {a b : α} : b ∈ s.add a ↔ b = a ∨ b ∈ s := by
  rw [mem_def, toList_add]
  split
  · rename_i h
    exact ⟨.inr, fun hb => hb.elim (fun h' => h' ▸ h) id⟩
  · simp [mem_def, or_comm]

@[simp] theorem mem_delete {a b : α} : b ∈ s.delete a ↔ b ≠ a ∧ b ∈ s := by
  simp [mem_def, delete, and_comm]

/-- Add the elements of a list, one after another. -/
def addAll (s : LinkedSet α) (l : List α) : LinkedSet α := l.foldl add s

@[simp] theorem mem_addAll {s : LinkedSet α} {l : List α} {b : α} :
    b ∈ s.addAll l ↔ b ∈ l ∨ b ∈ s := by
  induction l generalizing s with
  | nil => simp [addAll]
  | cons a l ih =>
    rw [addAll, foldl_cons, ← addAll, ih, mem_add, mem_cons]
    tauto

/-- Adding the elements of several lists gives their union. -/
theorem mem_foldl_addAll {β : Type*} (f : β → List α) {l : List β} {a : α} :
    a ∈ l.foldl (fun s b => s.addAll (f b)) s ↔ a ∈ s ∨ ∃ b ∈ l, a ∈ f b := by
  induction l generalizing s with
  | nil => simp
  | cons b l ih =>
    rw [foldl_cons, ih, mem_addAll, exists_mem_cons_iff]
    tauto

/-- The distinct elements of a list, in the order they first occur. -/
def ofList (l : List α) : LinkedSet α := (∅ : LinkedSet α).addAll l

@[simp] theorem mem_ofList {l : List α} {b : α} : b ∈ ofList l ↔ b ∈ l := by
  simp [ofList]

end LinkedSet
