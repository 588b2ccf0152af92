import Mathlib

/-!
# Lib/FirstMatch — editing the first element with a key

Where keys occur once, changing or erasing the first element with a key is changing or erasing all
of them (`updateFirst_eq_map`, `eraseFirst_eq_filter`), and edits under distinct keys can be made
at once (`foldl_updateFirst`, `foldl_eraseFirst`).
-/

/-- Edits that keep the keys. -/
theorem map_key_map {α κ : Type*} {key : α → κ} {l : List α} {f : α → α}
    (hf : ∀ a, key (f a) = key a) : (l.map f).map key = l.map key := by
  rw [List.map_map]
  exact List.map_congr_left fun a _ => hf a

variable {α κ ν : Type*} [DecidableEq κ] (key : α → κ)

def updateFirst (k : κ) (f : α → α) : List α → List α
  | [] => []
  | a :: l => if key a = k then f a :: l else a :: updateFirst k f l

def eraseFirst (k : κ) : List α → List α
  | [] => []
  | a :: l => if key a = k then l else a :: eraseFirst k l

variable {key}

theorem updateFirst_eq_map {l : List α} (h : (l.map key).Nodup) (k : κ) (f : α → α) :
    updateFirst key k f l = l.map fun a => if key a = k then f a else a := by
  induction l with
  | nil => rfl
  | cons a l ih =>
    obtain ⟨ha, hl⟩ := List.nodup_cons.mp h
    rw [updateFirst, List.map_cons]
    by_cases hk : key a = k
    · rw [if_pos hk, if_pos hk]
      congr 1
      refine (List.map_id l).symm.trans (List.map_congr_left fun b hb => ?_)
      rw [if_neg fun hkb => ha (List.mem_map.mpr ⟨b, hb, hkb.trans hk.symm⟩)]
      rfl
    · rw [if_neg hk, if_neg hk, ih hl]

theorem eraseFirst_eq_filter {l : List α} (h : (l.map key).Nodup) (k : κ) :
    eraseFirst key k l = l.filter fun a => key a ≠ k := by
  induction l with
  | nil => rfl
  | cons a l ih =>
    obtain ⟨ha, hl⟩ := List.nodup_cons.mp h
    rw [eraseFirst]
    by_cases hk : key a = k
    · rw [if_pos hk, List.filter_cons_of_neg (by simpa using hk)]
      refine (List.filter_eq_self.mpr fun b hb => ?_).symm
      exact decide_eq_true fun hkb => ha (List.mem_map.mpr ⟨b, hb, hkb.trans hk.symm⟩)
    · rw [if_neg hk, List.filter_cons_of_pos (by simpa using hk), ih hl]

/-- **Edits under distinct keys**, each of what it was looked up under. -/
theorem foldl_updateFirst {edits : List (κ × ν)} (hedits : (edits.map Prod.fst).Nodup)
    {f : ν → α → α} (hf : ∀ v a, key (f v a) = key a) {l : List α} (h : (l.map key).Nodup) :
    edits.foldl (fun l edit => updateFirst key edit.1 (f edit.2) l) l
      = l.map fun a => (edits.lookup (key a)).elim a fun v => f v a := by
  induction edits generalizing l with
  | nil => exact (List.map_id' l).symm
  | cons edit edits ih =>
    obtain ⟨hedit, hrest⟩ := List.nodup_cons.mp hedits
    have hkeep (a : α) : key (if key a = edit.1 then f edit.2 a else a) = key a := by
      split_ifs
      · exact hf _ _
      · rfl
    have hnodup : ((l.map fun a => if key a = edit.1 then f edit.2 a else a).map key).Nodup := by
      rw [map_key_map hkeep]
      exact h
    rw [List.foldl_cons, updateFirst_eq_map h, ih hrest hnodup, List.map_map]
    refine List.map_congr_left fun a _ => ?_
    rw [Function.comp_apply, hkeep, List.lookup_cons]
    by_cases hk : key a = edit.1
    · have hnone : edits.lookup (key a) = none := by
        rw [List.lookup_eq_none_iff]
        intro p hp
        rw [bne_iff_ne]
        rintro heq
        exact hedit (List.mem_map.mpr ⟨p, hp, (hk ▸ heq).symm⟩)
      rw [if_pos hk, hnone, beq_iff_eq.mpr hk]
      rfl
    · rw [if_neg hk, beq_false_of_ne hk]

/-- **Erasures** under keys. -/
theorem foldl_eraseFirst (keys : List κ) {l : List α} (h : (l.map key).Nodup) :
    keys.foldl (fun l k => eraseFirst key k l) l = l.filter fun a => key a ∉ keys := by
  induction keys generalizing l with
  | nil => exact (List.filter_eq_self.mpr fun _ _ => by simp).symm
  | cons k keys ih =>
    rw [List.foldl_cons, eraseFirst_eq_filter h,
      ih (h.sublist (List.filter_sublist.map key)), List.filter_filter]
    refine List.filter_congr fun a _ => ?_
    simp only [List.mem_cons, not_or, Bool.decide_and]
    exact Bool.and_comm _ _
