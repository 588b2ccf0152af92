import MindooDB.Lib.LinkedMap

/-!
# Lib/FirstAppearance — the distinct elements of a list, by number

`LinkedSet.ofList` lists the distinct elements of a list as they first appear.  Which one stands at
place `k` is a matter of counting: the one that has `k` different elements in front of its first
appearance (`getElem?_toList_ofList`).
-/

namespace LinkedSet

open List

variable {α : Type*} [DecidableEq α]

theorem ofList_append_singleton (l : List α) (a : α) : ofList (l ++ [a]) = (ofList l).add a := by
  rw [ofList, addAll, foldl_append]
  rfl

theorem toList_ofList_append_singleton (l : List α) (a : α) :
    (ofList (l ++ [a])).toList
      = if a ∈ l then (ofList l).toList else (ofList l).toList ++ [a] := by
  rw [ofList_append_singleton, toList_add]
  simp only [mem_ofList]

theorem length_toList_ofList (l : List α) : (ofList l).toList.length = l.toFinset.card := by
  rw [← toFinset_card_of_nodup (ofList l).nodup]
  congr 1
  ext a
  rw [mem_toFinset, mem_toFinset, ← mem_def, mem_ofList]

/-- The different elements in front of the first appearance of an element. -/
def distinctBefore (l : List α) (a : α) : ℕ := (l.takeWhile (· ≠ a)).toFinset.card

theorem takeWhile_append_of_mem {l : List α} {a : α} (h : a ∈ l) (l' : List α) :
    (l ++ l').takeWhile (· ≠ a) = l.takeWhile (· ≠ a) := by
  induction l with
  | nil => exact nomatch h
  | cons b l ih =>
    rw [cons_append, takeWhile_cons, takeWhile_cons]
    by_cases hb : b = a
    · simp [hb]
    · rw [ih ((mem_cons.mp h).resolve_left (Ne.symm hb))]

theorem takeWhile_append_of_notMem {l : List α} {a : α} (h : a ∉ l) (l' : List α) :
    (l ++ a :: l').takeWhile (· ≠ a) = l := by
  rw [takeWhile_append_of_pos fun b hb => by simpa using ne_of_mem_of_not_mem hb h]
  simp

/-- **The element at place `k`** has `k` different ones in front of its first appearance. -/
theorem getElem?_toList_ofList {l : List α} {k : ℕ} {a : α} :
    (ofList l).toList[k]? = some a ↔ a ∈ l ∧ distinctBefore l a = k := by
  induction l using List.reverseRecOn generalizing k with
  | nil => simp [ofList, addAll]
  | append_singleton l b ih =>
    rw [toList_ofList_append_singleton]
    by_cases hb : b ∈ l
    · rw [if_pos hb, ih]
      by_cases ha : a ∈ l
      · rw [distinctBefore, distinctBefore, takeWhile_append_of_mem ha]
        simp [ha]
      · have hab : a ≠ b := fun hab => ha (hab ▸ hb)
        simp [ha, hab]
    · rw [if_neg hb, getElem?_append, length_toList_ofList]
      split
      · rename_i hk
        rw [ih]
        by_cases ha : a ∈ l
        · rw [distinctBefore, distinctBefore, takeWhile_append_of_mem ha]
          simp [ha]
        · refine iff_of_false (fun h => ha h.1) fun h => ?_
          have hab : a = b := by simpa [ha] using h.1
          subst hab
          rw [distinctBefore, takeWhile_append_of_notMem ha] at h
          omega
      · rename_i hk
        constructor
        · intro h
          obtain ⟨hlt, hget⟩ := List.getElem?_eq_some_iff.mp h
          rw [length_singleton] at hlt
          have hab : a = b := by
            rw [← hget]
            exact mem_singleton.mp (getElem_mem _)
          subst hab
          rw [distinctBefore, takeWhile_append_of_notMem hb]
          exact ⟨by simp, by omega⟩
        · rintro ⟨ha, hcount⟩
          have hab : a = b := by
            by_contra hne
            have hmem : a ∈ l := by simpa [hne] using ha
            have hlast := ih.mpr ⟨hmem, rfl⟩
            have hlt := (List.getElem?_eq_some_iff.mp hlast).1
            rw [length_toList_ofList, distinctBefore] at hlt
            rw [distinctBefore, takeWhile_append_of_mem hmem] at hcount
            omega
          subst hab
          rw [distinctBefore, takeWhile_append_of_notMem hb] at hcount
          rw [hcount]
          simp

end LinkedSet
