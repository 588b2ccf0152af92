import MindooDB.Lib.LinkedMap

/-!
# Lib/PathMap — trees as maps from paths

A vertex of a tree is named by the keys on its way down, its own in front: the root is `[]`, the
parent of `k :: p` is `p`, and `p` lies at or above `q` when `p <:+ q`.  `modifyUp` changes a vertex
and everything above it, `childValues` reads the children in insertion order, and `sumOver` adds up
a quantity of all vertices; adding or deleting a vertex changes a sum by that vertex.
-/

namespace LinkedMap

open List

variable {κ ν : Type*} [DecidableEq κ]

/-! ## Changing a value in place -/

/-- Change the value at `k`, if it is bound. -/
def modify (m : LinkedMap κ ν) (k : κ) (f : ν → ν) : LinkedMap κ ν :=
  match m.get? k with
  | none => m
  | some v => m.set k (f v)

theorem get?_modify (m : LinkedMap κ ν) (k : κ) (f : ν → ν) (k' : κ) :
    (m.modify k f).get? k' = if k' = k then (m.get? k').map f else m.get? k' := by
  rw [modify]
  split
  · rename_i h
    split
    · rename_i hk
      rw [hk, h, Option.map_none]
    · rfl
  · rename_i v h
    rw [get?_set]
    split
    · rename_i hk
      rw [hk, h, Option.map_some]
    · rfl

theorem keys_modify (m : LinkedMap κ ν) (k : κ) (f : ν → ν) : (m.modify k f).keys = m.keys := by
  rw [modify]
  split
  · rfl
  · rename_i v h
    have hk : k ∈ m.keys := mem_keys_iff.mpr ⟨v, h⟩
    rw [keys_set, if_pos hk]

theorem toList_modify (m : LinkedMap κ ν) (k : κ) (f : ν → ν) :
    (m.modify k f).toList = m.toList.map fun e => if e.1 = k then (e.1, f e.2) else e := by
  rw [modify]
  split
  · rename_i h
    symm
    rw [map_congr_left, map_id]
    intro e he
    have hne : e.1 ≠ k := by
      rintro rfl
      exact absurd (mem_toList_iff.mp he) (by simp [h])
    simp [hne]
  · rename_i v h
    rw [toList_set_of_mem _ _ (mem_keys_iff.mpr ⟨v, h⟩)]
    refine map_congr_left fun e he => ?_
    split
    · rename_i hk
      subst hk
      have hv : v = e.2 := Option.some.inj (h.symm.trans (mem_toList_iff.mp he))
      rw [hv]
    · rfl

/-! ## Adding up -/

variable {f : ν → ν}

section Sum

variable {M : Type*} [AddCommMonoid M]

/-- The sum of a quantity over all bindings. -/
def sumOver (m : LinkedMap κ ν) (g : κ → ν → M) : M := (m.toList.map fun e => g e.1 e.2).sum

theorem sumOver_set_of_notMem (m : LinkedMap κ ν) {k : κ} (v : ν) (g : κ → ν → M)
    (h : k ∉ m.keys) : (m.set k v).sumOver g = m.sumOver g + g k v := by
  rw [sumOver, toList_set_of_notMem _ _ h, map_append, sum_append]
  simp [sumOver]

theorem sumOver_delete (m : LinkedMap κ ν) {k : κ} {v : ν} (g : κ → ν → M)
    (h : m.get? k = some v) : m.sumOver g = (m.delete k).sumOver g + g k v := by
  obtain ⟨l₁, l₂, hl, hdel⟩ := m.exists_split_delete h
  rw [sumOver, sumOver, hdel, hl]
  simp only [map_append, map_cons, sum_append, sum_cons]
  rw [add_right_comm, add_assoc, add_comm (g k v), ← add_assoc]

variable {g : κ → ν → M}

theorem sumOver_congr {m : LinkedMap κ ν} {g' : κ → ν → M}
    (h : ∀ k v, m.get? k = some v → g k v = g' k v) : m.sumOver g = m.sumOver g' := by
  refine congrArg List.sum (map_congr_left fun e he => ?_)
  exact h e.1 e.2 (mem_toList_iff.mp he)

/-- A change that keeps the quantity keeps the sum. -/
theorem sumOver_modify (m : LinkedMap κ ν) (k : κ)
    (h : ∀ v, m.get? k = some v → g k (f v) = g k v) :
    (m.modify k f).sumOver g = m.sumOver g := by
  rw [sumOver, toList_modify, map_map]
  refine congrArg List.sum (map_congr_left fun e he => ?_)
  rw [Function.comp_apply]
  split
  · rename_i hk
    subst hk
    exact h e.2 (mem_toList_iff.mp he)
  · rfl

omit [DecidableEq κ] in
theorem sumOver_zero (m : LinkedMap κ ν) : (m.sumOver fun _ _ => (0 : M)) = 0 := by
  rw [sumOver]
  exact sum_eq_zero fun a ha => by
    obtain ⟨_, -, rfl⟩ := mem_map.mp ha
    rfl

omit [DecidableEq κ] in
theorem sumOver_add (m : LinkedMap κ ν) (g g' : κ → ν → M) :
    (m.sumOver fun k v => g k v + g' k v) = m.sumOver g + m.sumOver g' := by
  rw [sumOver, sumOver, sumOver]
  exact sum_map_add

omit [DecidableEq κ] in
/-- Adding up sums is summing what is added up. -/
theorem sum_map_sumOver {β : Type*} (m : LinkedMap κ ν) (l : List β) (g : β → κ → ν → M) :
    (l.map fun b => m.sumOver (g b)).sum = m.sumOver fun k v => (l.map fun b => g b k v).sum := by
  induction l with
  | nil =>
    simp only [map_nil, sum_nil]
    exact (sumOver_zero m).symm
  | cons b l ih =>
    simp only [map_cons, sum_cons, ih]
    exact (sumOver_add m _ _).symm

/-- The keys that count in a sum, and what they count. -/
def nonzeroTerms [DecidableEq M] (m : LinkedMap κ ν) (g : κ → ν → M) : List (κ × M) :=
  (m.toList.map fun e => (e.1, g e.1 e.2)).filter fun t => t.2 ≠ 0

omit [DecidableEq κ] in
theorem sum_nonzeroTerms [DecidableEq M] (m : LinkedMap κ ν) (g : κ → ν → M) :
    ((m.nonzeroTerms g).map Prod.snd).sum = m.sumOver g := by
  rw [nonzeroTerms, sumOver]
  induction m.toList with
  | nil => rfl
  | cons e l ih =>
    rw [map_cons, map_cons, sum_cons, ← ih, filter_cons]
    by_cases hzero : g e.1 e.2 = 0 <;> simp [hzero]

theorem mem_nonzeroTerms [DecidableEq M] {m : LinkedMap κ ν} {g : κ → ν → M} {t : κ × M} :
    t ∈ m.nonzeroTerms g ↔ t.2 ≠ 0 ∧ ∃ v, m.get? t.1 = some v ∧ g t.1 v = t.2 := by
  rw [nonzeroTerms, mem_filter, decide_eq_true_eq, and_comm]
  refine and_congr_right fun _ => ?_
  constructor
  · intro h
    obtain ⟨e, he, rfl⟩ := mem_map.mp h
    exact ⟨e.2, mem_toList_iff.mp he, rfl⟩
  · rintro ⟨v, hv, hg⟩
    exact mem_map.mpr ⟨(t.1, v), mem_toList_iff.mpr hv, Prod.ext rfl hg⟩

/-- **Two sums are one** when the same keys count the same in both. -/
theorem sumOver_eq_of_counts [DecidableEq M] {m m' : LinkedMap κ ν} {g' : κ → ν → M}
    (h : ∀ k v, m.get? k = some v → g k v ≠ 0 → ∃ v', m'.get? k = some v' ∧ g' k v' = g k v)
    (h' : ∀ k v', m'.get? k = some v' → g' k v' ≠ 0 → ∃ v, m.get? k = some v ∧ g k v = g' k v') :
    m.sumOver g = m'.sumOver g' := by
  have hnodup : ∀ (m : LinkedMap κ ν) (g : κ → ν → M), (m.nonzeroTerms g).Nodup := fun m g => by
    refine List.Nodup.filter _ (List.Nodup.of_map Prod.fst ?_)
    rw [map_map]
    exact m.nodupKeys
  have hperm : (m.nonzeroTerms g).Perm (m'.nonzeroTerms g') := by
    refine (perm_ext_iff_of_nodup (hnodup m g) (hnodup m' g')).mpr fun t => ?_
    rw [mem_nonzeroTerms, mem_nonzeroTerms]
    refine and_congr_right fun hzero => ⟨?_, ?_⟩
    · rintro ⟨v, hv, hg⟩
      obtain ⟨v', hv', hg'⟩ := h t.1 v hv (hg ▸ hzero)
      exact ⟨v', hv', hg'.trans hg⟩
    · rintro ⟨v', hv', hg'⟩
      obtain ⟨v, hv, hg⟩ := h' t.1 v' hv' (hg' ▸ hzero)
      exact ⟨v, hv, hg.trans hg'⟩
  rw [← sum_nonzeroTerms, ← sum_nonzeroTerms]
  exact (hperm.map Prod.snd).sum_eq

end Sum

/-! ## Paths -/

variable {m : LinkedMap (List κ) ν}

/-- Change a vertex and all above it, bottom-up. -/
def modifyUp (m : LinkedMap (List κ) ν) (f : ν → ν) : List κ → LinkedMap (List κ) ν
  | [] => m.modify [] f
  | k :: p => modifyUp (m.modify (k :: p) f) f p

theorem get?_modifyUp (m : LinkedMap (List κ) ν) (f : ν → ν) (p q : List κ) :
    (m.modifyUp f p).get? q = if q <:+ p then (m.get? q).map f else m.get? q := by
  induction p generalizing m with
  | nil => simp [modifyUp, get?_modify]
  | cons k p ih =>
    rw [modifyUp, ih, get?_modify]
    simp only [suffix_cons_iff]
    by_cases hq : q = k :: p
    · have hnot : ¬k :: p <:+ p := fun h => absurd h.length_le (by simp)
      simp [hq, hnot]
    · simp [hq]

theorem toList_modifyUp (m : LinkedMap (List κ) ν) (f : ν → ν) (p : List κ) :
    (m.modifyUp f p).toList = m.toList.map fun e => if e.1 <:+ p then (e.1, f e.2) else e := by
  induction p generalizing m with
  | nil => simp [modifyUp, toList_modify]
  | cons k p ih =>
    rw [modifyUp, ih, toList_modify, map_map]
    refine map_congr_left fun e _ => ?_
    rw [Function.comp_apply]
    simp only [suffix_cons_iff]
    by_cases he : e.1 = k :: p
    · have hnot : ¬k :: p <:+ p := fun h => absurd h.length_le (by simp)
      simp [he, hnot]
    · simp [he]

/-- Two walks to the root are one. -/
theorem modifyUp_modifyUp (m : LinkedMap (List κ) ν) (f g : ν → ν) (p : List κ) :
    (m.modifyUp f p).modifyUp g p = m.modifyUp (fun v => g (f v)) p := by
  refine LinkedMap.ext ?_
  rw [toList_modifyUp, toList_modifyUp, toList_modifyUp, map_map]
  refine map_congr_left fun e _ => ?_
  by_cases he : e.1 <:+ p <;> simp [he]

theorem modifyUp_id (m : LinkedMap (List κ) ν) (hf : ∀ v, f v = v) (p : List κ) :
    m.modifyUp f p = m := by
  refine LinkedMap.ext ?_
  rw [toList_modifyUp]
  refine (map_congr_left fun e _ => ?_).trans (map_id _)
  simp [hf]

variable {p : List κ}

theorem sumOver_modifyUp {M : Type*} [AddCommMonoid M] (m : LinkedMap (List κ) ν)
    {g : List κ → ν → M} (h : ∀ q v, q <:+ p → m.get? q = some v → g q (f v) = g q v) :
    (m.modifyUp f p).sumOver g = m.sumOver g := by
  rw [sumOver, toList_modifyUp, map_map]
  refine congrArg List.sum (map_congr_left fun e he => ?_)
  rw [Function.comp_apply]
  split
  · rename_i hp
    exact h e.1 e.2 hp (mem_toList_iff.mp he)
  · rfl

/-- What is read of the children of a vertex, in insertion order. -/
def childValues {β : Type*} (m : LinkedMap (List κ) ν) (g : ν → β) (p : List κ) : List β :=
  m.toList.filterMap fun e => if e.1 ≠ [] ∧ e.1.tail = p then some (g e.2) else none

section Children

variable {β : Type*} {g : ν → β}

theorem mem_childValues {b : β} :
    b ∈ m.childValues g p ↔ ∃ k v, m.get? (k :: p) = some v ∧ g v = b := by
  rw [childValues, mem_filterMap]
  constructor
  · rintro ⟨⟨q, v⟩, hq, h⟩
    split at h
    · rename_i hp
      obtain ⟨k, r, rfl⟩ := exists_cons_of_ne_nil hp.1
      obtain rfl : r = p := hp.2
      exact ⟨k, v, mem_toList_iff.mp hq, Option.some.inj h⟩
    · exact nomatch h
  · rintro ⟨k, v, hv, rfl⟩
    exact ⟨(k :: p, v), mem_toList_iff.mpr hv, by simp⟩

theorem childValues_modify (hg : ∀ v, g (f v) = g v) (q p : List κ) :
    (m.modify q f).childValues g p = m.childValues g p := by
  rw [childValues, toList_modify, filterMap_map]
  refine filterMap_congr fun e _ => ?_
  rw [Function.comp_apply]
  split
  · simp [hg]
  · rfl

theorem childValues_modifyUp (hg : ∀ v, g (f v) = g v) (q p : List κ) :
    (m.modifyUp f q).childValues g p = m.childValues g p := by
  induction q generalizing m with
  | nil => exact childValues_modify hg [] p
  | cons k q ih => rw [modifyUp, ih, childValues_modify hg]

variable {q : List κ}

theorem childValues_set_of_notMem {k : κ} {v : ν} (h : k :: q ∉ m.keys)
    (p : List κ) : (m.set (k :: q) v).childValues g p
      = m.childValues g p ++ if q = p then [g v] else [] := by
  rw [childValues, toList_set_of_notMem _ _ h, filterMap_append]
  congr 1
  by_cases hq : q = p <;> simp [hq]

theorem childValues_delete_perm {k : κ} {v : ν} (h : m.get? (k :: q) = some v)
    (p : List κ) : ((if q = p then [g v] else []) ++ (m.delete (k :: q)).childValues g p).Perm
      (m.childValues g p) := by
  obtain ⟨l₁, l₂, hl, hdel⟩ := m.exists_split_delete h
  rw [childValues, childValues, hdel, hl, filterMap_append, filterMap_append]
  by_cases hq : q = p
  · simpa [hq] using perm_middle.symm
  · simp [hq]

theorem childValues_delete_of_ne {k : κ} (h : q ≠ p) :
    (m.delete (k :: q)).childValues g p = m.childValues g p := by
  cases hget : m.get? (k :: q) with
  | none => rw [delete_of_notMem m (notMem_keys_iff.mpr hget)]
  | some v =>
    obtain ⟨l₁, l₂, hl, hdel⟩ := m.exists_split_delete hget
    rw [childValues, childValues, hdel, hl, filterMap_append, filterMap_append]
    simp [h]

/-- Deleting a child leaves the others, told by their keys, in their order. -/
theorem childValues_delete_eq_filter {f : β → κ}
    (hf : ∀ k v, m.get? (k :: q) = some v → f (g v) = k) (k : κ) :
    (m.delete (k :: q)).childValues g q
      = (m.childValues g q).filter fun b => decide (f b ≠ k) := by
  rw [childValues, childValues, delete, filterMap_filter, filter_filterMap]
  refine filterMap_congr fun e he => ?_
  obtain ⟨p, v⟩ := e
  cases p with
  | nil => simp
  | cons j p =>
    by_cases hp : p = q
    · subst hp
      have hj := hf j v (mem_toList_iff.mp he)
      by_cases hk : j = k <;> simp [Option.filter, hj, hk]
    · simp [hp]

theorem map_childValues {γ : Type*} (f : β → γ) (p : List κ) :
    (m.childValues g p).map f = m.childValues (fun v => f (g v)) p := by
  rw [childValues, map_filterMap, childValues]
  refine filterMap_congr fun e _ => ?_
  split <;> rfl

/-- What is read of the children differs where it tells the keys of the children. -/
theorem nodup_childValues
    (h : ∀ k v k' v', m.get? (k :: p) = some v → m.get? (k' :: p) = some v' → g v = g v' → k = k') :
    (m.childValues g p).Nodup := by
  have hkeys : m.toList.Pairwise fun a b => a.1 ≠ b.1 := pairwise_map.mp m.nodupKeys
  refine pairwise_filterMap.mpr (hkeys.imp_of_mem ?_)
  rintro ⟨q, v⟩ ⟨q', v'⟩ hq hq' hne b hb b' hb' rfl
  obtain ⟨hp, hv⟩ := Option.ite_none_right_eq_some.mp hb
  obtain ⟨hp', hv'⟩ := Option.ite_none_right_eq_some.mp hb'
  obtain ⟨k, r, rfl⟩ := exists_cons_of_ne_nil hp.1
  obtain ⟨k', r', rfl⟩ := exists_cons_of_ne_nil hp'.1
  obtain rfl : r = p := hp.2
  obtain rfl : r' = r := hp'.2
  have hk := h k v k' v' (mem_toList_iff.mp hq) (mem_toList_iff.mp hq') (Option.some.inj (hv.trans hv'.symm))
  exact hne (congrArg (· :: r') hk)

end Children

end LinkedMap
