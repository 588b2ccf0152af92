import MindooDB.View.Numbering

/-!
# View/Flush — places and positions after every batch

After a flush every entry has its place (`Flushed.numbered`).  What is remembered of positions stays
right exactly when no entry that remembers its position, and keeps its own number, lies below one
that is renumbered (`remembered_flush_iff`).  Reading a position remembers the right one.
-/

namespace MindooDB

open Option

variable {env : Runtime} {s s' : ViewIndex}

/-- **No position goes stale by numbering the tree anew**: where an entry remembers its position and
has its place, all the entries above it have theirs. -/
def StaysPut (env : Runtime) (s : ViewIndex) : Prop :=
  ∀ k p e, s.entries.get? (k :: p) = some e → e.position.isSome = true → HasPlace env s (k :: p) →
    ∀ q, q <:+ p → HasPlace env s q

/-- **Between two batches** nothing waits to be renumbered. -/
structure Flushed (env : Runtime) (s : ViewIndex) : Prop where
  cached : Cached s
  numbered : ∀ p, NumberedAt env s p

theorem Flushed.placed (h : Flushed env s) : Placed env s := ⟨h.cached, fun p _ => h.numbered p⟩

variable {e' : VirtualViewEntryData}

variable {p : EntryPath}

section Flush

variable {view : VirtualView}

/-- Every entry gets its place, and forgets its position when that is another one. -/
theorem numbering_flush (htree : Tree view.env s) (h : Placed view.env s) {k : EntryKey}
    (hget : (view.processPendingSiblingIndexUpdates s).entries.get? (k :: p) = some e') :
    ∃ e, s.entries.get? (k :: p) = some e
      ∧ e'.numbering = renumber (placeOf view.env s p k) e.numbering := by
  have hflush := flushes_processPendingSiblingIndexUpdates view htree h.cached
  obtain ⟨e, he, hnumbering⟩ := hflush.entry hget
  refine ⟨e, he, ?_⟩
  rw [hnumbering]
  split
  · rfl
  · rename_i hp
    have hplace := (hasPlace_iff h.cached htree he).mp (h.numbered p hp k e he)
    rw [renumber, if_pos hplace]

variable (view) in
theorem flush_of_some {e : VirtualViewEntryData} (hget : s.entries.get? p = some e) :
    ∃ e', (view.processPendingSiblingIndexUpdates s).entries.get? p = some e' := by
  obtain ⟨e', he', -⟩ :=
    (renumbersMany_some (renumbers_processPendingSiblingIndexUpdates view s)).2 hget
  exact ⟨e', he'⟩

theorem fst_renumber (index : ℕ) (x : ℕ × Option (List ℕ)) : (renumber index x).1 = index := by
  rw [renumber]
  split
  · assumption
  · rfl

/-- The number that the flush gives. -/
theorem siblingIndex_flush (htree : Tree view.env s) (h : Placed view.env s) {k : EntryKey}
    {p : EntryPath} {e' : VirtualViewEntryData}
    (hget : (view.processPendingSiblingIndexUpdates s).entries.get? (k :: p) = some e') :
    e'.siblingIndex = placeOf view.env s p k := by
  obtain ⟨e, -, hnumbering⟩ := numbering_flush htree h hget
  have hfst := congrArg Prod.fst hnumbering
  rw [fst_renumber] at hfst
  exact hfst

/-- **After a flush every entry has its place.** -/
theorem flushed_flush (htree : Tree view.env s) (h : Placed view.env s) :
    Flushed view.env (view.processPendingSiblingIndexUpdates s) := by
  have hflush := flushes_processPendingSiblingIndexUpdates view htree h.cached
  refine ⟨hflush.cached, fun p k e' hget => ?_⟩
  rw [hasPlace_iff hflush.cached hflush.tree hget, siblingIndex_flush htree h hget, placeOf,
    placeOf, hflush.children]

theorem siblingIndexes_inj {p : EntryPath} (h : s'.siblingIndexes p = s.siblingIndexes p)
    {q : EntryPath} (hq : q ≠ []) (hsuffix : q <:+ p) :
    ((s'.entries.get? q).map (·.siblingIndex)).getD 0
      = ((s.entries.get? q).map (·.siblingIndex)).getD 0 := by
  induction p with
  | nil => exact absurd (List.suffix_nil.mp hsuffix) hq
  | cons k p ih =>
    rw [ViewIndex.siblingIndexes, ViewIndex.siblingIndexes, List.append_singleton_inj] at h
    rcases List.suffix_cons_iff.mp hsuffix with rfl | hsuffix
    · exact h.2
    · exact ih h.1 hsuffix

/-- **What is remembered stays right** exactly when the flush strands no position. -/
theorem remembered_flush_iff (htree : Tree view.env s) (h : Placed view.env s)
    (hbefore : Remembered s) :
    Remembered (view.processPendingSiblingIndexUpdates s) ↔ StaysPut view.env s := by
  have hplace : ∀ {k p e}, s.entries.get? (k :: p) = some e →
      (HasPlace view.env s (k :: p) ↔ e.siblingIndex = placeOf view.env s p k) :=
    hasPlace_iff h.cached htree
  constructor
  · intro hremembered k p e hget hposition hhere q hq
    cases q with
    | nil => trivial
    | cons j r =>
      obtain ⟨position, hposition⟩ := isSome_iff_exists.mp hposition
      obtain ⟨e', he'⟩ := flush_of_some view hget
      obtain ⟨e₀, he₀, hnumbering⟩ := numbering_flush htree h he'
      obtain rfl := some.inj (hget.symm.trans he₀)
      -- the entry keeps its number, so it still remembers
      rw [renumber, if_pos ((hplace hget).mp hhere)] at hnumbering
      have hkept : e'.position = some position := (congrArg Prod.snd hnumbering).trans hposition
      have hsame : (view.processPendingSiblingIndexUpdates s).siblingIndexes (k :: p)
          = s.siblingIndexes (k :: p) :=
        (hremembered k p e' position he' hkept).symm.trans (hbefore k p e position hget hposition)
      obtain ⟨a, ha⟩ := htree.exists_of_suffix hget (hq.trans (List.suffix_cons k p))
      obtain ⟨a', ha'⟩ := flush_of_some view ha
      have hindex := siblingIndexes_inj hsame (List.cons_ne_nil j r)
        (hq.trans (List.suffix_cons k p))
      rw [ha, ha', map_some, map_some, getD_some, getD_some,
        siblingIndex_flush htree h ha'] at hindex
      exact (hplace ha).mpr hindex.symm
  · intro hstays k p e' position hget hposition
    obtain ⟨e, he, hnumbering⟩ := numbering_flush htree h hget
    have hkept : e.siblingIndex = placeOf view.env s p k ∧ e.position = some position := by
      rw [renumber] at hnumbering
      split at hnumbering
      · rename_i hindex
        exact ⟨hindex, (congrArg Prod.snd hnumbering).symm.trans hposition⟩
      · cases (congrArg Prod.snd hnumbering).symm.trans hposition
    have hhere := (hplace he).mpr hkept.1
    rw [hbefore k p e position he hkept.2]
    refine (siblingIndexes_congr fun q hq hsuffix => ?_).symm
    obtain ⟨j, r, rfl⟩ := List.exists_cons_of_ne_nil hq
    obtain ⟨a, ha⟩ := htree.exists_of_suffix he hsuffix
    obtain ⟨a', ha'⟩ := flush_of_some view ha
    have habove : HasPlace view.env s (j :: r) := by
      rcases List.suffix_cons_iff.mp hsuffix with heq | hsuffix
      · exact heq ▸ hhere
      · exact hstays k p e he (by rw [hkept.2]; rfl) hhere _ hsuffix
    rw [ha, ha', map_some, map_some, siblingIndex_flush htree h ha',
      (hplace ha).mp habove]

end Flush

/-! ## Reading positions -/

/-- Two states of an entry that differ in what it remembers of its position. -/
def ReadsPosition (e e' : VirtualViewEntryData) : Prop :=
  ∃ position positionStr, e' = { e with position := position, positionStr := positionStr }

theorem ReadsPosition.renumbered {e : VirtualViewEntryData} (h : ReadsPosition e e') :
    Renumbered e e' := by
  obtain ⟨_, _, rfl⟩ := h
  exact ⟨_, _, _, _, rfl⟩

theorem getPosition_cons (s : ViewIndex) (k : EntryKey) (p : EntryPath) : s.getPosition (k :: p)
    = ((s.entries.get? (k :: p)).bind (·.position)).getD (s.siblingIndexes (k :: p)) := rfl

/-- With what is remembered right, the position of an entry is read off the numbers. -/
theorem getPosition_eq (h : Remembered s) {k : EntryKey} :
    s.getPosition (k :: p) = s.siblingIndexes (k :: p) := by
  rw [getPosition_cons]
  cases hget : s.entries.get? (k :: p) with
  | none => rfl
  | some e =>
    cases hposition : e.position with
    | none => simp [hposition]
    | some position =>
      simp only [bind_some, hposition, getD_some]
      exact h k p e position hget hposition

/-- Where all positions read right, what is remembered is right. -/
theorem remembered_of_getPosition (h : ∀ k p e, s.entries.get? (k :: p) = some e →
    s.getPosition (k :: p) = s.siblingIndexes (k :: p)) : Remembered s := by
  intro k p e position hget hposition
  rw [← h k p e hget, getPosition_cons, hget]
  simp [hposition]

section Read

variable {path : EntryPath} {f : VirtualViewEntryData → VirtualViewEntryData}

theorem get?_modify_reads (hf : ∀ e, ReadsPosition e (f e))
    (hget : (s.modify path f).entries.get? p = some e') :
    ∃ e, s.entries.get? p = some e ∧ ReadsPosition e e' ∧ e' = if p = path then f e else e := by
  rw [ViewIndex.modify, LinkedMap.get?_modify] at hget
  split at hget
  · rename_i hp
    obtain ⟨e, he, rfl⟩ := map_eq_some_iff.mp hget
    exact ⟨e, he, hf e, (if_pos hp).symm⟩
  · rename_i hp
    exact ⟨e', hget, ⟨_, _, rfl⟩, (if_neg hp).symm⟩

theorem siblingIndexes_modify_reads (hf : ∀ e, ReadsPosition e (f e)) (p : EntryPath) :
    (s.modify path f).siblingIndexes p = s.siblingIndexes p := by
  refine siblingIndexes_congr fun q _ _ => ?_
  rw [ViewIndex.modify, LinkedMap.get?_modify]
  split
  · cases s.entries.get? q with
    | none => rfl
    | some e =>
      obtain ⟨_, _, he⟩ := hf e
      simp [he]
  · rfl

theorem getChildEntries_modify_reads (hf : ∀ e, ReadsPosition e (f e)) (p : EntryPath) :
    (s.modify path f).getChildEntries env p = s.getChildEntries env p := by
  cases hget : (s.modify path f).entries.get? p with
  | none =>
    have hnone : s.entries.get? p = none := by
      rw [ViewIndex.modify, LinkedMap.get?_modify] at hget
      split at hget
      · exact map_eq_none_iff.mp hget
      · exact hget
    rw [getChildEntries_of_absent hget, getChildEntries_of_absent hnone]
  | some e' =>
    obtain ⟨e, he, ⟨_, _, rfl⟩, -⟩ := get?_modify_reads hf hget
    exact getChildEntries_congr he hget rfl rfl
      (childKeys_modify (fun e => (hf e).renumbered.same.sortKey) p)

/-- **A read keeps every place.** -/
theorem Flushed.modify_reads (h : Flushed env s) (hf : ∀ e, ReadsPosition e (f e)) :
    Flushed env (s.modify path f) := by
  refine ⟨fun p e' sorted hget hcache => ?_, fun p k e' hget => ?_⟩
  · obtain ⟨e, he, ⟨_, _, rfl⟩, -⟩ := get?_modify_reads hf hget
    rw [childKeys_modify fun e => (hf e).renumbered.same.sortKey]
    exact h.cached p e sorted he hcache
  · obtain ⟨e, he, ⟨_, _, rfl⟩, -⟩ := get?_modify_reads hf hget
    obtain ⟨e₀, i, he₀, hi, hplace⟩ := h.numbered p k e he
    obtain rfl := some.inj (he.symm.trans he₀)
    exact ⟨_, i, hget, hi, by rw [getChildEntries_modify_reads hf]; exact hplace⟩

/-- A read that remembers what the numbers say keeps what is remembered right. -/
theorem Remembered.modify_reads (h : Remembered s) (hf : ∀ e, ReadsPosition e (f e))
    (hposition : ∀ k p, path = k :: p → ∀ e position, (f e).position = some position →
      e.position = some position ∨ position = s.siblingIndexes path) :
    Remembered (s.modify path f) := by
  intro k p e' position hget hsome
  obtain ⟨e, he, -, heq⟩ := get?_modify_reads hf hget
  rw [siblingIndexes_modify_reads hf]
  split at heq
  · rename_i hp
    subst heq
    rcases hposition k p hp.symm e position hsome with hbefore | hread
    · exact h k p e position he hbefore
    · rw [hp]
      exact hread
  · subst heq
    exact h k p e' position he hsome

end Read

theorem remembered_readPosition (h : Remembered s) (path : EntryPath) :
    Remembered (s.readPosition path) := by
  refine h.modify_reads (fun e => ⟨_, _, rfl⟩) fun k p hpath e position hposition => .inr ?_
  obtain rfl := some.inj hposition
  rw [hpath]
  exact getPosition_eq h

theorem remembered_readPositionStr (h : Remembered s) (path : EntryPath) :
    Remembered (s.readPositionStr path) := by
  rw [ViewIndex.readPositionStr]
  split
  · exact h
  · exact (remembered_readPosition h path).modify_reads (fun e => ⟨_, _, rfl⟩)
      fun k p _ e position hposition => .inl hposition

theorem Flushed.readPosition (h : Flushed env s) (path : EntryPath) :
    Flushed env (s.readPosition path) :=
  h.modify_reads fun _ => ⟨_, _, rfl⟩

theorem Flushed.readPositionStr (h : Flushed env s) (path : EntryPath) :
    Flushed env (s.readPositionStr path) := by
  rw [ViewIndex.readPositionStr]
  split
  · exact h
  · exact (h.readPosition path).modify_reads fun _ => ⟨_, _, rfl⟩

end MindooDB
