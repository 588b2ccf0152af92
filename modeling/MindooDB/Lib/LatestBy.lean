import MindooDB.Lib.LinkedMap

/-!
# Lib/LatestBy — what stands at the end of a log

`latestBy key l` keeps of each key the last element of `l` that carries it, where it stands.  A new
element supersedes that of its key (`supersede`).  Two readings of such a log: `Tabulates`, one row
for each key, and `lastWrite`, where the elements write to slots that are not their keys.
-/

variable {α κ : Type*} [DecidableEq κ]

/-- Of every key the last element. -/
def latestBy (key : α → κ) : List α → List α
  | [] => []
  | a :: l => if l.any fun b => key b = key a then latestBy key l else a :: latestBy key l

variable {key : α → κ} {l : List α}

theorem mem_latestBy {a : α} :
    a ∈ latestBy key l ↔ ∃ before after, l = before ++ a :: after ∧ ∀ b ∈ after, key b ≠ key a := by
  induction l with
  | nil => simp [latestBy]
  | cons x l ih =>
    have htail : (∃ before after, x :: l = before ++ a :: after ∧ ∀ b ∈ after, key b ≠ key a)
        ↔ (x = a ∧ ∀ b ∈ l, key b ≠ key a) ∨ a ∈ latestBy key l := by
      rw [ih]
      constructor
      · rintro ⟨before, after, hl, hafter⟩
        rcases before with _ | ⟨y, before⟩
        · obtain ⟨rfl, rfl⟩ := List.cons.inj hl
          exact .inl ⟨rfl, hafter⟩
        · obtain ⟨-, rfl⟩ := List.cons.inj hl
          exact .inr ⟨before, after, rfl, hafter⟩
      · rintro (⟨rfl, hl⟩ | ⟨before, after, rfl, hafter⟩)
        · exact ⟨[], l, rfl, hl⟩
        · exact ⟨x :: before, after, rfl, hafter⟩
    rw [htail, latestBy]
    split
    · rename_i hany
      obtain ⟨b, hb, hkey⟩ := List.any_eq_true.mp hany
      refine ⟨.inr, fun h => h.resolve_left ?_⟩
      rintro ⟨rfl, hnone⟩
      exact hnone b hb (by simpa using hkey)
    · rename_i hany
      rw [List.mem_cons]
      refine or_congr_left ⟨fun h => ⟨h.symm, fun b hb hkey => hany ?_⟩, fun h => h.1.symm⟩
      subst h
      exact List.any_eq_true.mpr ⟨b, hb, by simpa using hkey⟩

theorem mem_of_mem_latestBy {a : α} (h : a ∈ latestBy key l) : a ∈ l := by
  obtain ⟨before, after, rfl, -⟩ := mem_latestBy.mp h
  simp

/-- **One element for each key.** -/
theorem nodup_map_latestBy (key : α → κ) (l : List α) : ((latestBy key l).map key).Nodup := by
  induction l with
  | nil => exact List.nodup_nil
  | cons a l ih =>
    rw [latestBy]
    split
    · exact ih
    · rename_i hany
      refine List.nodup_cons.mpr ⟨fun ha => hany ?_, ih⟩
      obtain ⟨b, hb, hkey⟩ := List.mem_map.mp ha
      exact List.any_eq_true.mpr ⟨b, mem_of_mem_latestBy hb, by simpa using hkey⟩

theorem latestBy_eq_self (h : (l.map key).Nodup) : latestBy key l = l := by
  induction l with
  | nil => rfl
  | cons a l ih =>
    obtain ⟨ha, hl⟩ := List.nodup_cons.mp h
    have hnone : ¬l.any fun b => key b = key a := fun hany => by
      obtain ⟨b, hb, hkey⟩ := List.any_eq_true.mp hany
      exact ha (List.mem_map.mpr ⟨b, hb, of_decide_eq_true hkey⟩)
    rw [latestBy, if_neg hnone, ih hl]

/-- **The latest of the later elements**, when a test tells these apart. -/
theorem filter_latestBy_append {later : List α} {p : α → Bool} (hl : ∀ a ∈ l, p a = false)
    (hlater : ∀ a ∈ later, p a = true) :
    (latestBy key (l ++ later)).filter p = latestBy key later := by
  induction l with
  | nil => exact List.filter_eq_self.mpr fun a ha => hlater a (mem_of_mem_latestBy ha)
  | cons a l ih =>
    obtain ⟨ha, hl⟩ := List.forall_mem_cons.mp hl
    rw [List.cons_append, latestBy]
    split
    · exact ih hl
    · rw [List.filter_cons_of_neg (by simp [ha]), ih hl]

/-- **A new element supersedes the old one of its key**, and comes last. -/
theorem latestBy_append_singleton (key : α → κ) (l : List α) (a : α) :
    latestBy key (l ++ [a]) = (latestBy key l).filter (fun b => key b ≠ key a) ++ [a] := by
  induction l with
  | nil => rfl
  | cons b l ih =>
    rw [List.cons_append, latestBy, latestBy, ih]
    by_cases hkey : key b = key a
    · simp only [List.any_append, List.any_cons, hkey, decide_true, Bool.true_or, Bool.or_true,
        if_true]
      split
      · rfl
      · simp [hkey]
    · have hlast : ([a].any fun c => decide (key c = key b)) = false := by
        simpa using Ne.symm hkey
      rw [List.any_append, hlast, Bool.or_false]
      split
      · rfl
      · simp [hkey]

/-- The last element is the latest of its key. -/
theorem getLast?_latestBy (key : α → κ) (l : List α) : (latestBy key l).getLast? = l.getLast? := by
  rcases List.eq_nil_or_concat l with rfl | ⟨l, a, rfl⟩
  · rfl
  · rw [List.concat_eq_append, latestBy_append_singleton]
    simp

/-! ## Superseding -/

section Supersede

variable {β ν : Type*} {l : List (κ × β)} {k : κ} {b : β}

/-- What the other keys carry. -/
def others (l : List (κ × β)) (k : κ) : List (κ × β) := l.filter fun e => e.1 ≠ k

/-- The log once `b` is the latest of `k`. -/
def supersede (l : List (κ × β)) (k : κ) (b : β) : List (κ × β) := others l k ++ [(k, b)]

theorem mem_others {e : κ × β} : e ∈ others l k ↔ e ∈ l ∧ e.1 ≠ k := by simp [others]

theorem mem_supersede {e : κ × β} : e ∈ supersede l k b ↔ e ∈ others l k ∨ e = (k, b) := by
  simp [supersede]

variable (value : β → Option ν)

/-- `m` has a row for each key whose element has a value. -/
def Tabulates (l : List (κ × β)) (m : LinkedMap κ ν) : Prop :=
  ∀ k v, m.get? k = some v ↔ ∃ b, (k, b) ∈ l ∧ value b = some v

variable {value} {m : LinkedMap κ ν}

theorem tabulates_nil : Tabulates value ([] : List (κ × β)) ∅ := by simp [Tabulates]

/-- The rows of the other keys stay. -/
theorem Tabulates.other (h : Tabulates value l m) {k' : κ} (hk : k' ≠ k) (v : ν) :
    m.get? k' = some v ↔ ∃ b', (k', b') ∈ supersede l k b ∧ value b' = some v := by
  rw [h k' v]
  simp [mem_supersede, mem_others, hk]

theorem exists_mem_supersede_self {v : ν} :
    (∃ b', (k, b') ∈ supersede l k b ∧ value b' = some v) ↔ value b = some v := by
  simp [mem_supersede, mem_others]

theorem Tabulates.set (h : Tabulates value l m) {v : ν} (hv : value b = some v) :
    Tabulates value (supersede l k b) (m.set k v) := by
  intro k' v'
  rw [LinkedMap.get?_set]
  split
  · subst ‹k' = k›
    rw [exists_mem_supersede_self, hv]
  · exact h.other ‹_› v'

theorem Tabulates.delete (h : Tabulates value l m) (hv : value b = none) :
    Tabulates value (supersede l k b) (m.delete k) := by
  intro k' v'
  rw [LinkedMap.get?_delete]
  split
  · subst ‹k' = k›
    rw [exists_mem_supersede_self, hv]
  · exact h.other ‹_› v'

/-- An element without a value changes nothing where there is no row. -/
theorem Tabulates.absent (h : Tabulates value l m) (hv : value b = none) (hk : m.get? k = none) :
    Tabulates value (supersede l k b) m := by
  intro k' v'
  by_cases hk' : k' = k
  · subst hk'
    rw [exists_mem_supersede_self, hv, hk]
  · exact h.other hk' v'

end Supersede

/-! ## Writes to slots -/

section Writes

variable {σ ν : Type*} [DecidableEq σ] (write : α → Option (σ × Option ν))

/-- **What a log leaves in a slot**; writing `none` empties it. -/
def lastWrite (l : List α) (s : σ) : Option ν :=
  l.foldl (fun v a =>
    match write a with
    | some (s', v') => if s' = s then v' else v
    | none => v) none

@[simp] theorem lastWrite_nil (s : σ) : lastWrite write [] s = none := rfl

theorem lastWrite_append_of_write {a : α} {s' : σ} {v : Option ν} (ha : write a = some (s', v))
    (l : List α) (s : σ) :
    lastWrite write (l ++ [a]) s = if s' = s then v else lastWrite write l s := by
  simp only [lastWrite, List.foldl_append, List.foldl_cons, List.foldl_nil, ha]

theorem lastWrite_append_of_none {a : α} (ha : write a = none) (l : List α) (s : σ) :
    lastWrite write (l ++ [a]) s = lastWrite write l s := by
  simp only [lastWrite, List.foldl_append, List.foldl_cons, List.foldl_nil, ha]

/-- **Superseding is writing once more**, if what the superseded element wrote to the other slots is
not what stands there. -/
theorem lastWrite_supersede {β : Type*} {write : κ × β → Option (σ × Option ν)} {l : List (κ × β)}
    {k : κ} {b : β} (h : ∀ s, (∀ v, write (k, b) ≠ some (s, v)) →
      lastWrite write (others l k) s = lastWrite write l s) (s : σ) :
    lastWrite write (supersede l k b) s = lastWrite write (l ++ [(k, b)]) s := by
  rw [supersede]
  rcases hw : write (k, b) with _ | ⟨s', v⟩
  · rw [lastWrite_append_of_none write hw, lastWrite_append_of_none write hw]
    exact h s (by simp [hw])
  · rw [lastWrite_append_of_write write hw, lastWrite_append_of_write write hw]
    split
    · rfl
    · rename_i hne
      exact h s fun v' hv' => hne (by rw [hw] at hv'; exact congrArg Prod.fst (Option.some.inj hv'))

/-- What stands in a slot was written there. -/
theorem exists_write_of_lastWrite {l : List α} {s : σ} {v : ν} (h : lastWrite write l s = some v) :
    ∃ a ∈ l, write a = some (s, some v) := by
  induction l using List.reverseRecOn with
  | nil => simp at h
  | append_singleton l a ih =>
    rcases ha : write a with _ | ⟨s', v'⟩
    · rw [lastWrite_append_of_none write ha] at h
      obtain ⟨b, hb, hwrite⟩ := ih h
      exact ⟨b, List.mem_append_left _ hb, hwrite⟩
    · rw [lastWrite_append_of_write write ha] at h
      split at h
      · subst h ‹s' = s›
        exact ⟨a, by simp, ha⟩
      · obtain ⟨b, hb, hwrite⟩ := ih h
        exact ⟨b, List.mem_append_left _ hb, hwrite⟩

end Writes
