import MindooDB.View.Steps

/-!
# View/Runs — what holds after every batch

`Settled`: the tree has its shape, the counts of children and documents are right, the lists name
documents, and no category is left empty.  Every batch keeps it, so every run of batches ends in a
settled view (`settled_run`).  On the way each phase of a batch gets its summary: `Removed`, `Added`
and `Dropped`.
-/

namespace MindooDB

open LinkedMap List Option Relation SameEntry ViewIndex

/-- **Every category but the root has something below it**, those of a list excepted. -/
def Filled (s : ViewIndex) (except : List EntryPath) : Prop :=
  ∀ key p e, s.entries.get? (key :: p) = some e → e.isCategory = true → key :: p ∉ except →
    ∃ k e', s.entries.get? (k :: key :: p) = some e'

variable {e e' : VirtualViewEntryData} {path : EntryPath}

namespace VirtualView

variable {view : VirtualView} {s s' : ViewIndex}

/-! ## Adding documents -/

variable (view) in
/-- **What a view is after some documents have been added.** -/
structure Added (docs : List DocEntry) (s s' : ViewIndex) : Prop where
  tree : Tree view.env s'
  of_some : ∀ {path e}, s.entries.get? path = some e →
    ∃ e', s'.entries.get? path = some e' ∧ SameEntry e e'
  some_of : ∀ {path e'}, s'.entries.get? path = some e' →
    (∃ e, s.entries.get? path = some e ∧ SameEntry e e') ∨
      s.entries.get? path = none ∧ ∃ doc ∈ docs, ∃ step ∈ view.docScript doc, ∃ counter,
        path = step.path view doc ∧ SameEntry (step.madeEntry view doc counter) e'
  placed : ∀ doc ∈ docs, ∀ place ∈ view.docPlaces doc,
    ∃ e, s'.entries.get? ((view.docSortKey doc).toKey view.env :: place) = some e
  counts : HasCounts s → HasCounts s'
  deepCounts : HasDeepCounts s → HasDeepCounts s'
  lists : HasLists s → HasLists s'

/-- Adding nothing. -/
theorem Added.nil (htree : Tree view.env s) : view.Added [] s s where
  tree := htree
  of_some h := ⟨_, h, refl _⟩
  some_of h := .inl ⟨_, h, refl _⟩
  placed _ h := nomatch h
  counts := id
  deepCounts := id
  lists := id

theorem added_addOne (htree : Tree view.env s) (doc : DocEntry) :
    view.Added [doc] s (view.addOne s doc) := by
  obtain ⟨hmany, hplaced⟩ := foldl_script_spec doc htree htree.root
    (List.Subset.refl (view.docScript doc))
  have htree' := hmany.tree htree
  have hcounts := hmany.counts htree
  exact {
    tree := ⟨htree'.root, htree'.parent, htree'.key⟩
    of_some := fun hget => hmany.of_some hget
    some_of := fun hget => by
      rcases hmany.some_of hget with h | ⟨hnone, hmade⟩
      · exact .inl h
      · exact .inr ⟨hnone, doc, mem_cons_self, hmade⟩
    placed := fun doc' hdoc' => by
      obtain rfl := mem_singleton.mp hdoc'
      exact hplaced
    counts := fun h => (hcounts.1 h).of_entries_eq rfl
    deepCounts := fun h => (hcounts.2 h).of_entries_eq rfl
    lists := fun h => h.addOne hmany }

theorem Added.append {docs docs' : List DocEntry} {s'' : ViewIndex} (h : view.Added docs s s')
    (h' : view.Added docs' s' s'') : view.Added (docs ++ docs') s s'' where
  tree := h'.tree
  of_some hget := by
    obtain ⟨e₁, he₁, hsame⟩ := h.of_some hget
    obtain ⟨e₂, he₂, hsame'⟩ := h'.of_some he₁
    exact ⟨e₂, he₂, hsame.trans hsame'⟩
  some_of {path e'} hget := by
    rcases h'.some_of hget with ⟨e₁, he₁, hsame⟩ | ⟨hnone, doc, hdoc, hmade⟩
    · rcases h.some_of he₁ with ⟨e, he, hsame'⟩ | ⟨hnone, doc, hdoc, step, hstep, counter, hpath,
        hsame'⟩
      · exact .inl ⟨e, he, hsame'.trans hsame⟩
      · exact .inr ⟨hnone, doc, mem_append_left _ hdoc, step, hstep, counter, hpath,
          hsame'.trans hsame⟩
    · refine .inr ⟨?_, doc, mem_append_right _ hdoc, hmade⟩
      refine eq_none_iff_forall_ne_some.mpr fun e hbefore => ?_
      obtain ⟨e₁, he₁, -⟩ := h.of_some hbefore
      exact nomatch hnone.symm.trans he₁
  placed doc hdoc place hplace := by
    rcases mem_append.mp hdoc with hdoc | hdoc
    · obtain ⟨e, he⟩ := h.placed doc hdoc place hplace
      obtain ⟨e', he', -⟩ := h'.of_some he
      exact ⟨e', he'⟩
    · exact h'.placed doc hdoc place hplace
  counts hc := h'.counts (h.counts hc)
  deepCounts hc := h'.deepCounts (h.deepCounts hc)
  lists hl := h'.lists (h.lists hl)

/-- **Adding a list of documents.** -/
theorem added_foldl_addOne (docs : List DocEntry) (htree : Tree view.env s) :
    view.Added docs s (docs.foldl view.addOne s) := by
  induction docs generalizing s with
  | nil => exact Added.nil htree
  | cons doc docs ih =>
    have hfirst := added_addOne htree doc
    exact hfirst.append (ih hfirst.tree)

/-! ### Where the steps of a script lie -/

variable (view) in
/-- What a step hangs up lies on the way to a place, or is the document there. -/
def Placement.LiesOn (place : EntryPath) : Placement → Prop
  | .category _ value _ _ parent => view.categoryPath value parent <:+ place
  | .document parent => parent = place

variable (view) in
/-- A step that enters a category on the way to a place. -/
def Placement.EntersOn (place : EntryPath) : Placement → Prop
  | .category _ value _ _ parent => view.categoryPath value parent <:+ place
  | .document _ => False

theorem Placement.EntersOn.liesOn {place place' : EntryPath} {step : Placement}
    (h : step.EntersOn view place) (hplace : place <:+ place') : step.LiesOn view place' := by
  cases step with
  | category => exact List.IsSuffix.trans h hplace
  | document => exact h.elim

theorem suffix_partsPath (parts : List JSString) (parent : EntryPath) :
    parent <:+ view.partsPath parts parent := by
  rw [partsPath]
  induction parts generalizing parent with
  | nil => exact suffix_rfl
  | cons part parts ih => exact (suffix_cons _ _).trans (ih _)

theorem entersOn_of_mem_partsScript {column : VirtualViewColumn} {nextDescending : Bool}
    {parts : List JSString} {indentLevel : ℕ} {parent : EntryPath} {step : Placement}
    (h : step ∈ view.partsScript column nextDescending parts indentLevel parent) :
    step.EntersOn view (view.partsPath parts parent) := by
  induction parts generalizing indentLevel parent with
  | nil => exact nomatch h
  | cons part parts ih =>
    rcases mem_cons.mp h with rfl | h
    · exact suffix_partsPath parts (view.categoryPath (partValue part) parent)
    · exact ih h

variable {parent : EntryPath} {except : List EntryPath}

/-- The categories that a value enters are those down to its path. -/
theorem entersOn_of_mem_valueScript {column : VirtualViewColumn} {nextDescending : Bool}
    {value : ColumnValue} {step : Placement}
    (h : step ∈ view.valueScript column nextDescending value parent) :
    step.EntersOn view (view.valuePath value parent) := by
  have hsimple : step ∈ [Placement.category column.name value nextDescending 0 parent] →
      step.EntersOn view (view.categoryPath value parent) := by
    intro h
    rw [mem_singleton.mp h]
    exact suffix_rfl
  cases value with
  | string text =>
    simp only [valueScript, valuePath] at h ⊢
    split
    · rename_i hslash
      rw [if_pos hslash] at h
      exact entersOn_of_mem_partsScript h
    · rename_i hslash
      rw [if_neg hslash] at h
      exact hsimple h
  | _ => exact hsimple h

theorem suffix_valuePath (value : ColumnValue) (parent : EntryPath) :
    parent <:+ view.valuePath value parent := by
  cases value with
  | string text =>
    rw [valuePath]
    split
    · exact suffix_partsPath _ _
    · exact suffix_cons _ _
  | _ => exact suffix_cons _ _

theorem suffix_of_mem_places {doc : DocEntry} {columns : List VirtualViewColumn}
    {parent place : EntryPath} (h : place ∈ view.places doc columns parent) :
    parent <:+ place := by
  induction columns generalizing parent with
  | nil =>
    rw [mem_singleton.mp h]
  | cons column columns ih =>
    obtain ⟨value, -, h⟩ := mem_flatMap.mp h
    exact (suffix_valuePath value parent).trans (ih h)

/-- **What a script hangs up lies on the way to a place of its document.** -/
theorem exists_place_of_mem_script {doc : DocEntry} {columns : List VirtualViewColumn}
    {parent : EntryPath} {step : Placement} (h : step ∈ view.script doc columns parent) :
    ∃ place ∈ view.places doc columns parent, step.LiesOn view place := by
  induction columns generalizing parent with
  | nil =>
    obtain rfl := mem_singleton.mp h
    exact ⟨parent, mem_cons_self, rfl⟩
  | cons column columns ih =>
    obtain ⟨value, hvalue, h⟩ := mem_flatMap.mp h
    rcases mem_append.mp h with h | h
    · obtain ⟨place, hplace⟩ := exists_mem_of_ne_nil _
        (view.places_ne_nil doc columns (view.valuePath value parent))
      exact ⟨place, mem_flatMap.mpr ⟨value, hvalue, hplace⟩,
        (entersOn_of_mem_valueScript h).liesOn (suffix_of_mem_places hplace)⟩
    · obtain ⟨place, hplace, hstep⟩ := ih h
      exact ⟨place, mem_flatMap.mpr ⟨value, hvalue, hplace⟩, hstep⟩

/-- Below every category made there is something. -/
theorem Added.filled {docs : List DocEntry}
    (h : view.Added docs s s') (hfilled : Filled s except) : Filled s' except := by
  intro key p e' hget hcat hnot
  rcases h.some_of hget with ⟨e, he, hsame⟩ | ⟨-, doc, hdoc, step, hstep, counter, hpath, hsame⟩
  · obtain ⟨k, child, hchild⟩ := hfilled key p e he (hsame.isCategory.symm.trans hcat) hnot
    obtain ⟨child', hchild', -⟩ := h.of_some hchild
    exact ⟨k, child', hchild'⟩
  · obtain ⟨place, hplace, hlies⟩ := exists_place_of_mem_script hstep
    cases step with
    | document parent => exact nomatch hsame.isCategory.symm.trans hcat
    | category itemName value descending indentLevel parent =>
      obtain ⟨e, he⟩ := h.placed doc hdoc place hplace
      exact h.tree.exists_child_of_suffix he (hpath ▸ hlies : key :: p <:+ place)

/-! ## Removing documents -/

/-- What lost its last entry is among the parents to be checked. -/
theorem Removed.filled {allowed occurrences : List Occurrence} {toCheck : List EntryPath}
    {r : ViewIndex × List EntryPath} (h : view.Removed allowed occurrences s toCheck r)
    (hfilled : Filled s []) : Filled r.1 r.2 := by
  intro key p e' hget hcat hnot
  obtain ⟨-, e, he, hsame⟩ := h.some_of hget
  obtain ⟨k, child, hchild⟩ := hfilled key p e he (hsame.isCategory.symm.trans hcat) not_mem_nil
  have hkept : k :: key :: p ∉ takenPaths occurrences := fun htaken =>
    hnot ((h.check _).mpr (.inr ⟨k, htaken, has_iff.mpr ⟨child, hchild⟩⟩))
  obtain ⟨child', hchild', -⟩ := h.of_some hchild hkept
  exact ⟨k, child', hchild'⟩

/-! ## Dropping the categories left empty -/

variable (view) in
/-- **An empty category is dropped**; nothing is told to the entries above its parent. -/
inductive Drops : ViewIndex → ViewIndex → Prop
  | mk {s : ViewIndex} {key : EntryKey} {parent : EntryPath} {entry : VirtualViewEntryData}
      (hget : s.entries.get? (key :: parent) = some entry) (hcat : entry.isCategory = true)
      (hempty : entry.childCount = 0) :
      Drops s { s.unhang view.env entry id key parent with
        entriesByDocId := s.entriesByDocId.delete (scopedDocIdKey entry.origin entry.docId) }

/-- Nothing hangs below an entry that counts no children. -/
theorem leaf_of_childCount_eq_zero (hcounts : HasCounts s) {path : EntryPath}
    {entry : VirtualViewEntryData} (hget : s.entries.get? path = some entry)
    (hempty : entry.childCount = 0) (k : EntryKey) : s.entries.get? (k :: path) = none := by
  refine eq_none_iff_forall_ne_some.mpr fun child hchild => ?_
  have hcount := (hcounts _ _ hget).childCount
  have hcat := s.tally_nonneg (P := IsChild path) true
  have hdoc := s.tally_nonneg (P := IsChild path) false
  have hone : 0 < s.tally (IsChild path) child.isCategory :=
    tally_pos_iff.mpr ⟨_, child, hchild, isChild_cons.mpr rfl, rfl⟩
  rw [hempty, ViewIndex.childrenOf, ViewIndex.childrenOf] at hcount
  cases hkind : child.isCategory <;> rw [hkind] at hone <;> omega

variable {entry : VirtualViewEntryData}

/-- An entry without children counts none. -/
theorem childCount_eq_zero_iff (hcounts : HasCounts s) (hget : s.entries.get? path = some entry) :
    entry.childCount = 0 ↔ ∀ k, s.entries.get? (k :: path) = none := by
  refine ⟨leaf_of_childCount_eq_zero hcounts hget, fun hleaf => ?_⟩
  have hnone : ∀ kind, s.childrenOf kind path = 0 := fun kind =>
    tally_eq_zero fun q e hq hchild => by
      obtain ⟨k, q, rfl⟩ := exists_cons_of_ne_nil hchild.1
      obtain rfl := isChild_cons.mp hchild
      exact nomatch (hleaf k).symm.trans hq
  rw [(hcounts _ _ hget).childCount, hnone, hnone]
  rfl

theorem Drops.spec (h : view.Drops s s') (htree : Tree view.env s) (hcounts : HasCounts s) :
    Tree view.env s' ∧ HasCounts s' ∧ (HasLists s → HasLists s') := by
  obtain ⟨hget, hcat, hempty⟩ := h
  rename_i key parent entry
  have hleaf := leaf_of_childCount_eq_zero hcounts hget hempty
  have htree' : Tree view.env (s.unhang view.env entry id key parent) :=
    htree.unhang refl hleaf
  have htells : TellsDocuments entry.isCategory (-1) id := hcat ▸ tellsDocuments_id (-1)
  have hcounts' : HasCounts (s.unhang view.env entry id key parent) :=
    hasCounts_unhang hget htells hcounts
  refine ⟨⟨htree'.root, htree'.parent, htree'.key⟩, hcounts'.of_entries_eq rfl, ?_⟩
  intro hlists key' occurrences hoccurrences
  rw [get?_delete] at hoccurrences
  split at hoccurrences
  · cases hoccurrences
  · exact hlists _ _ hoccurrences

/-- What is left was there before. -/
theorem Drops.some_of (h : view.Drops s s') (hget : s'.entries.get? path = some e') :
    ∃ e, s.entries.get? path = some e ∧ SameEntry e e' := by
  obtain ⟨hentry, hcat, hempty⟩ := h
  exact (some_of_unhang refl hget).2

/-- Documents stay. -/
theorem Drops.of_some (h : view.Drops s s')
    (hget : s.entries.get? path = some e) (hdoc : e.isCategory = false) :
    ∃ e', s'.entries.get? path = some e' ∧ SameEntry e e' := by
  obtain ⟨hentry, hcat, hempty⟩ := h
  refine unhang_of_some refl ?_ hget
  rintro rfl
  obtain rfl := some.inj (hget.symm.trans hentry)
  exact nomatch hdoc.symm.trans hcat

/-- Dropping a category leaves at most its parent empty. -/
theorem Drops.filled {key : EntryKey} {lists : LinkedMap JSString (List Occurrence)}
    (hfilled : Filled s ((key :: parent) :: except)) :
    Filled { s.unhang view.env entry id key parent with entriesByDocId := lists }
      (parent :: except) := by
  intro k q e' hget hcat hnot
  obtain ⟨hne, e, he, hsame⟩ := some_of_unhang refl hget
  rw [mem_cons, not_or] at hnot
  obtain ⟨k', child, hchild⟩ := hfilled k q e he (hsame.isCategory.symm.trans hcat) (by
    rw [mem_cons, not_or]
    exact ⟨hne, hnot.2⟩)
  have hkept : k' :: k :: q ≠ key :: parent := fun heq => hnot.1 (List.cons.inj heq).2
  obtain ⟨child', hchild', -⟩ : ∃ child', (s.unhang view.env entry id key parent).entries.get?
      (k' :: k :: q) = some child' ∧ SameEntry child child' :=
    unhang_of_some refl hkept hchild
  exact ⟨k', child', hchild'⟩

variable (view) in
/-- The state after an empty category is dropped. -/
def dropped (key : EntryKey) (parent : EntryPath) (entry : VirtualViewEntryData) (s : ViewIndex) :
    ViewIndex :=
  { s.unhang view.env entry id key parent with
    entriesByDocId := s.entriesByDocId.delete (scopedDocIdKey entry.origin entry.docId) }

theorem removeCategoryFromParent_cons {key : EntryKey}
    (hget : s.entries.get? (key :: parent) = some entry) :
    view.removeCategoryFromParent (key :: parent) s
      = if ((view.dropped key parent entry s).entries.get? parent).any
            fun p => p.isCategory && p.childCount = 0 then
          view.removeCategoryFromParent parent (view.dropped key parent entry s)
        else view.dropped key parent entry s := by
  have hdropped : { (markEntryForSiblingIndexFlush
        { s with entries :=
          (s.entries.delete (key :: parent)).modify parent (loseChild view.env entry) }
        parent) with
        entriesByDocId := s.entriesByDocId.delete (scopedDocIdKey entry.origin entry.docId) }
      = view.dropped key parent entry s := by
    rw [dropped, unhang, modifyUp_id _ (fun v => (rfl : id v = v))]
    rfl
  rw [removeCategoryFromParent]
  simp only [removeChildEntry, hget, map_some]
  rw [← hdropped]
  rfl

variable (view) in
/-- **What is left after the cleanup**: the documents, and no empty category but the excepted. -/
structure Dropped (except : List EntryPath) (s s' : ViewIndex) : Prop where
  steps : ReflTransGen view.Drops s s'
  filled : Filled s' except

/-- **Dropping an empty category**, and what this leaves empty above it. -/
theorem removeCategoryFromParent_spec (htree : Tree view.env s) (hcounts : HasCounts s)
    (hempty : ∃ e, s.entries.get? path = some e ∧ e.isCategory = true ∧ e.childCount = 0)
    (hfilled : Filled s (path :: except)) :
    view.Dropped except s (view.removeCategoryFromParent path s) := by
  induction path generalizing s with
  | nil =>
    rw [removeCategoryFromParent]
    exact ⟨ReflTransGen.refl, fun k q e hget hcat hnot =>
      hfilled k q e hget hcat (by simpa using hnot)⟩
  | cons key parent ih =>
    obtain ⟨entry, hget, hcat, hzero⟩ := hempty
    have hdrop : view.Drops s (view.dropped key parent entry s) := .mk hget hcat hzero
    have hfilled' : Filled (view.dropped key parent entry s) (parent :: except) :=
      Drops.filled hfilled
    obtain ⟨htree', hcounts', -⟩ := hdrop.spec htree hcounts
    rw [removeCategoryFromParent_cons hget]
    split
    · rename_i hparent
      obtain ⟨e', he', hboth⟩ := (Option.any_eq_true _ _).mp hparent
      rw [Bool.and_eq_true, decide_eq_true_eq] at hboth
      have hrest := ih htree' hcounts' ⟨e', he', hboth⟩ hfilled'
      exact ⟨ReflTransGen.head hdrop hrest.steps, hrest.filled⟩
    · rename_i hparent
      refine ⟨ReflTransGen.single hdrop, fun k q e he hec hnot => ?_⟩
      by_cases hq : k :: q = parent
      · -- the parent is a category, so it counts children
        subst hq
        by_contra hnone
        push Not at hnone
        have hleaf : ∀ j, (view.dropped key (k :: q) entry s).entries.get? (j :: k :: q) = none :=
          fun j => eq_none_iff_forall_ne_some.mpr (hnone j)
        refine hparent ?_
        rw [he, any_some, hec, (childCount_eq_zero_iff hcounts' he).mpr hleaf]
        rfl
      · exact hfilled' k q e he hec (by simpa [hq] using hnot)

section

variable (h : ReflTransGen view.Drops s s')

include h

theorem dropsMany_spec (htree : Tree view.env s) (hcounts : HasCounts s) :
    Tree view.env s' ∧ HasCounts s' ∧ (HasLists s → HasLists s') := by
  induction h with
  | refl => exact ⟨htree, hcounts, id⟩
  | tail _ hdrop ih =>
    obtain ⟨htree', hcounts', hlists'⟩ := ih
    obtain ⟨htree'', hcounts'', hlists''⟩ := hdrop.spec htree' hcounts'
    exact ⟨htree'', hcounts'', fun h => hlists'' (hlists' h)⟩

theorem dropsMany_some_of (hget : s'.entries.get? path = some e') :
    ∃ e, s.entries.get? path = some e ∧ SameEntry e e' := by
  induction h generalizing e' with
  | refl => exact ⟨e', hget, refl e'⟩
  | tail _ hdrop ih =>
    obtain ⟨e₁, he₁, hsame⟩ := hdrop.some_of hget
    obtain ⟨e, he, hsame'⟩ := ih he₁
    exact ⟨e, he, hsame'.trans hsame⟩

theorem dropsMany_of_some (hget : s.entries.get? path = some e) (hdoc : e.isCategory = false) :
    ∃ e', s'.entries.get? path = some e' ∧ SameEntry e e' := by
  induction h with
  | refl => exact ⟨e, hget, refl e⟩
  | tail _ hdrop ih =>
    obtain ⟨e₁, he₁, hsame⟩ := ih
    obtain ⟨e₂, he₂, hsame'⟩ := hdrop.of_some he₁ (hsame.isCategory.trans hdoc)
    exact ⟨e₂, he₂, hsame.trans hsame'⟩

end

/-- **The cleanup** drops every category that the removals have left empty. -/
theorem foldl_checkCategory_spec (toCheck : List EntryPath) (htree : Tree view.env s)
    (hcounts : HasCounts s) (hfilled : Filled s toCheck)
    (hcategories : ∀ key parent, key :: parent ∈ toCheck → key.isCategory = true) :
    view.Dropped [] s (toCheck.foldl view.checkCategory s) := by
  induction toCheck generalizing s with
  | nil => exact ⟨ReflTransGen.refl, hfilled⟩
  | cons path toCheck ih =>
    rw [foldl_cons]
    have hfirst : view.Dropped toCheck s (view.checkCategory s path) := by
      rw [checkCategory]
      split
      · rename_i hany
        obtain ⟨e, he, hzero⟩ := (Option.any_eq_true _ _).mp hany
        refine removeCategoryFromParent_spec htree hcounts
          ⟨e, he, ?_, decide_eq_true_eq.mp hzero⟩ hfilled
        cases path with
        | nil =>
          obtain ⟨root, hroot, hcat⟩ := htree.root
          obtain rfl := some.inj (he.symm.trans hroot)
          exact hcat
        | cons key parent =>
          exact (htree.isCategory_eq he).trans (hcategories key parent mem_cons_self)
      · rename_i hany
        refine ⟨ReflTransGen.refl, fun k q e he hcat hnot => ?_⟩
        by_cases hq : k :: q = path
        · subst hq
          by_contra hnone
          push Not at hnone
          refine hany ?_
          rw [he, any_some, (childCount_eq_zero_iff hcounts he).mpr fun j =>
            eq_none_iff_forall_ne_some.mpr (hnone j)]
          rfl
        · exact hfilled k q e he hcat (by simpa [hq] using hnot)
    obtain ⟨htree', hcounts', -⟩ := dropsMany_spec hfirst.steps htree hcounts
    have hrest := ih htree' hcounts' hfirst.filled fun key parent hmem =>
      hcategories key parent (mem_cons_of_mem _ hmem)
    exact ⟨hfirst.steps.trans hrest.steps, hrest.filled⟩

end VirtualView

/-! ## Settled views -/

/-- **What holds of a view between two batches.** -/
structure Settled (env : Runtime) (s : ViewIndex) : Prop where
  tree : Tree env s
  counts : HasCounts s
  lists : HasLists s
  filled : Filled s []

namespace VirtualView

variable {view : VirtualView} {s s' : ViewIndex}

variable (view) in
/-- The view after the removals, before what they read is thrown away. -/
def takenOut (change : VirtualViewDataChange) (s : ViewIndex) : ViewIndex × List EntryPath :=
  (occurrencesToRemove change s).foldl view.removeOccurrence (s, [])

theorem removed_takenOut (change : VirtualViewDataChange) (h : Settled view.env s) :
    view.Removed (occurrencesToRemove change s) (occurrencesToRemove change s) s []
      (view.takenOut change s) :=
  foldl_removeOccurrence_spec (h.lists.listed change) (List.Subset.refl _) [] h.tree

theorem Tree.of_entries_eq {env : Runtime} (h : Tree env s) (heq : s'.entries = s.entries) :
    Tree env s' := by
  obtain ⟨hroot, hparent, hkey⟩ := h
  simp only [HasCategory] at hroot hparent
  rw [← heq] at hroot hparent hkey
  exact ⟨hroot, hparent, hkey⟩

variable (view) in
/-- **What the removals of a batch leave.** -/
structure RemovedBy (change : VirtualViewDataChange) (s : ViewIndex)
    (r : ViewIndex × List EntryPath) : Prop where
  entries : r.1.entries = (view.takenOut change s).1.entries
  toCheck : r.2 = (view.takenOut change s).2
  tree : Tree view.env r.1
  counts : HasCounts r.1
  deepCounts : HasDeepCounts s → HasDeepCounts r.1
  lists : HasLists r.1
  filled : Filled r.1 r.2
  categories : ∀ key parent, key :: parent ∈ r.2 → key.isCategory = true

theorem removedBy_applyRemovals (change : VirtualViewDataChange) (h : Settled view.env s) :
    view.RemovedBy change s (view.applyRemovals change s) := by
  have hremoved := removed_takenOut change h
  obtain ⟨htree, hcounts, hdeep⟩ := unhangsMany_counts (h.lists.listed change) hremoved.steps h.tree
  have hentries : (view.applyRemovals change s).1.entries
      = (view.takenOut change s).1.entries := by
    rw [applyRemovals_eq]
    rfl
  have htoCheck : (view.applyRemovals change s).2 = (view.takenOut change s).2 := by
    rw [applyRemovals_eq]
    rfl
  have hfilled := hremoved.filled h.filled
  refine ⟨hentries, htoCheck, Tree.of_entries_eq htree hentries,
    (hcounts h.counts).of_entries_eq hentries, fun hd => (hdeep hd).of_entries_eq hentries,
    ?_, ?_, ?_⟩
  · intro key occurrences hget
    rw [applyRemovals_eq] at hget
    change (unlist _ _ _).get? key = _ at hget
    rw [get?_unlist] at hget
    split at hget
    · cases hget
    · exact h.lists key occurrences hget
  · rw [Filled, hentries, htoCheck]
    exact hfilled
  · intro key parent hmem
    rw [htoCheck, hremoved.check] at hmem
    obtain ⟨k, -, hhas⟩ := hmem.resolve_left not_mem_nil
    obtain ⟨e, he⟩ := has_iff.mp hhas
    obtain ⟨e', he', hcat⟩ := h.tree.parent he
    exact (h.tree.isCategory_eq he').symm.trans hcat

variable (view) in
/-- The view before the last phase of a batch, the numbering. -/
def beforeFlush (change : VirtualViewDataChange) (s : ViewIndex) : ViewIndex :=
  (view.applyRemovals change s).2.foldl view.checkCategory
    (view.applyAdditions change (view.applyRemovals change s).1)

theorem applyChanges_eq (s : ViewIndex) (change : VirtualViewDataChange) :
    view.applyChanges s change
      = view.processPendingSiblingIndexUpdates (view.beforeFlush change s) := rfl

theorem added_applyAdditions (change : VirtualViewDataChange) (h : Settled view.env s) :
    view.Added (view.acceptedDocs change) (view.applyRemovals change s).1
      (view.applyAdditions change (view.applyRemovals change s).1) := by
  rw [applyAdditions_eq]
  exact added_foldl_addOne _ (removedBy_applyRemovals change h).tree

theorem dropped_beforeFlush (change : VirtualViewDataChange) (h : Settled view.env s) :
    view.Dropped [] (view.applyAdditions change (view.applyRemovals change s).1)
      (view.beforeFlush change s) := by
  have hremoved := removedBy_applyRemovals change h
  have hadded := added_applyAdditions change h
  exact foldl_checkCategory_spec _ hadded.tree (hadded.counts hremoved.counts)
    (hadded.filled hremoved.filled) hremoved.categories

theorem settled_beforeFlush (change : VirtualViewDataChange) (h : Settled view.env s) :
    Settled view.env (view.beforeFlush change s) := by
  have hremoved := removedBy_applyRemovals change h
  have hadded := added_applyAdditions change h
  have hdropped := dropped_beforeFlush change h
  obtain ⟨htree, hcounts, hlists⟩ := dropsMany_spec hdropped.steps hadded.tree
    (hadded.counts hremoved.counts)
  exact ⟨htree, hcounts, hlists (hadded.lists hremoved.lists), hdropped.filled⟩

theorem settled_of_renumbers {env : Runtime} (h : Settled env s)
    (hmany : ReflTransGen Renumbers s s') : Settled env s' := by
  obtain ⟨htree, hlists, hcounts, -⟩ := renumbersMany_spec hmany h.tree
  refine ⟨htree, hcounts h.counts, ?_, ?_⟩
  · rw [HasLists, hlists]
    exact h.lists
  · intro key p e' hget hcat hnot
    obtain ⟨e, he, hsame⟩ := (renumbersMany_some hmany).1 hget
    obtain ⟨k, child, hchild⟩ := h.filled key p e he (hsame.same.isCategory.symm.trans hcat) hnot
    obtain ⟨child', hchild', -⟩ := (renumbersMany_some hmany).2 hchild
    exact ⟨k, child', hchild'⟩

/-- **Every batch leaves a settled view settled.** -/
theorem settled_applyChanges (change : VirtualViewDataChange) (h : Settled view.env s) :
    Settled view.env (view.applyChanges s change) :=
  settled_of_renumbers (settled_beforeFlush change h)
    (renumbers_processPendingSiblingIndexUpdates view _)

/-- **An entry after a batch** was there before, or the script of an addition has made it. -/
theorem some_of_applyChanges {change : VirtualViewDataChange} (h : Settled view.env s)
    (hget : (view.applyChanges s change).entries.get? path = some e') :
    (∃ e, s.entries.get? path = some e ∧ SameEntry e e') ∨
      ∃ doc ∈ view.acceptedDocs change, ∃ step ∈ view.docScript doc, ∃ counter,
        path = step.path view doc ∧ SameEntry (step.madeEntry view doc counter) e' := by
  have hadded := added_applyAdditions change h
  obtain ⟨e₃, he₃, hrenumbered⟩ :=
    (renumbersMany_some (renumbers_processPendingSiblingIndexUpdates view _)).1 hget
  obtain ⟨e₂, he₂, hsame₂⟩ := dropsMany_some_of (dropped_beforeFlush change h).steps he₃
  have hsame := hsame₂.trans hrenumbered.same
  rcases hadded.some_of he₂ with ⟨e₁, he₁, hsame₁⟩ |
    ⟨-, doc, hdoc, step, hstep, counter, hpath, hmade⟩
  · rw [(removedBy_applyRemovals change h).entries] at he₁
    obtain ⟨-, e, he, hsame₀⟩ := (removed_takenOut change h).some_of he₁
    exact .inl ⟨e, he, (hsame₀.trans hsame₁).trans hsame⟩
  · exact .inr ⟨doc, hdoc, step, hstep, counter, hpath, hmade.trans hsame⟩

/-- **The documents that a batch adds** are at all their places afterwards. -/
theorem placed_applyChanges {change : VirtualViewDataChange} (h : Settled view.env s)
    {doc : DocEntry} (hdoc : doc ∈ view.acceptedDocs change) {place : EntryPath}
    (hplace : place ∈ view.docPlaces doc) : ∃ e, (view.applyChanges s change).entries.get?
      ((view.docSortKey doc).toKey view.env :: place) = some e := by
  have hadded := added_applyAdditions change h
  obtain ⟨e₁, he₁⟩ := hadded.placed doc hdoc place hplace
  obtain ⟨e₂, he₂, -⟩ := dropsMany_of_some (dropped_beforeFlush change h).steps he₁
    (hadded.tree.isCategory_eq he₁)
  obtain ⟨e₃, he₃, -⟩ :=
    (renumbersMany_some (renumbers_processPendingSiblingIndexUpdates view _)).2 he₂
  exact ⟨e₃, he₃⟩

theorem get?_initial (path : EntryPath) : view.initial.entries.get? path
    = if path = [] then view.initial.entries.get? [] else none := by
  rw [initial, get?_set]
  split
  · rename_i hpath
    rw [get?_set, if_pos rfl]
  · rfl

/-- The view without documents has one entry, and it counts nothing. -/
theorem counts_initial {p : EntryPath} (hget : view.initial.entries.get? p = some e) :
    Counts view.initial p e ∧ DeepCounts view.initial p e := by
  have hzero : ∀ (P : EntryPath → Prop) [DecidablePred P] (kind : Bool), ¬P [] →
      view.initial.tally P kind = 0 := fun P _ kind hP =>
    tally_eq_zero fun q e hq hPq => by
      rw [get?_initial] at hq
      split at hq
      · rename_i hnil
        exact absurd (hnil ▸ hPq) hP
      · cases hq
  have hchildren : ∀ kind, view.initial.childrenOf kind p = 0 := fun kind =>
    hzero _ kind fun h => h.1 rfl
  have hdescendants : ∀ kind, view.initial.descendantsOf kind p = 0 := fun kind =>
    hzero _ kind fun h => h.1 rfl
  have hblank : Blank e := by
    rw [get?_initial] at hget
    split at hget
    · obtain rfl := some.inj hget
      exact ⟨rfl, rfl, rfl, rfl, rfl, rfl⟩
    · cases hget
  refine ⟨⟨?_, ?_, ?_, ?_⟩, ?_, ?_⟩ <;>
  simp [hchildren, hdescendants, hblank.childCategoryCount, hblank.childDocumentCount,
    hblank.childCount, hblank.descendantDocumentCount, hblank.descendantCategoryCount,
    hblank.descendantCount]

theorem settled_initial : Settled view.env view.initial := by
  have hnone : ∀ key parent, view.initial.entries.get? (key :: parent) = none :=
    fun key parent => by rw [get?_initial, if_neg (by simp)]
  refine ⟨⟨⟨_, rfl, rfl⟩, fun hget => ?_, fun hget => ?_⟩, fun p e hget => (counts_initial hget).1,
    fun key occurrences hget => absurd hget (by simp [initial]), fun key p e hget => ?_⟩
  · cases (hnone _ _).symm.trans hget
  · cases (hnone _ _).symm.trans hget
  · cases (hnone _ _).symm.trans hget

/-- **Every run of batches ends in a settled view.** -/
theorem settled_run (changes : List VirtualViewDataChange) :
    Settled view.env (view.run changes) := by
  induction changes using List.reverseRecOn with
  | nil => exact settled_initial
  | append_singleton changes change ih =>
    rw [run, foldl_append]
    exact settled_applyChanges change ih

theorem run_concat (changes : List VirtualViewDataChange) (change : VirtualViewDataChange) :
    view.run (changes ++ [change]) = view.applyChanges (view.run changes) change := by
  rw [run, run, foldl_append]
  rfl

/-- What holds of all prefixes of a list with one more element. -/
theorem forall_prefix_concat {α : Type*} {P : List α → Prop} {l : List α} {a : α} :
    (∀ before, before <+: l ++ [a] → P before)
      ↔ (∀ before, before <+: l → P before) ∧ P (l ++ [a]) := by
  simp only [prefix_concat_iff]
  constructor
  · exact fun h => ⟨fun before hb => h before (.inr hb), h _ (.inl rfl)⟩
  · rintro ⟨h, hlast⟩ before (rfl | hb)
    · exact hlast
    · exact h before hb

/-- What holds of all steps of a list with one more element. -/
theorem forall_step_concat {α : Type*} {P : List α → α → Prop} {l : List α} {a : α} :
    (∀ before next, before ++ [next] <+: l ++ [a] → P before next)
      ↔ (∀ before next, before ++ [next] <+: l → P before next) ∧ P l a := by
  simp only [prefix_concat_iff, append_singleton_inj]
  constructor
  · exact fun h => ⟨fun before next hb => h before next (.inr hb), h _ _ (.inl ⟨rfl, rfl⟩)⟩
  · rintro ⟨h, hlast⟩ before next (⟨rfl, rfl⟩ | hb)
    · exact hlast
    · exact h before next hb

end VirtualView

/-! ## A small view -/

/-- A runtime that compares nothing. -/
def plainRuntime : Runtime where
  baseSensitivityCollator _ _ := 0
  defaultCollator _ _ := 0
  localeCompare _ _ := 0
  toISOString _ := ""
  toText _ := ""
  parseFloat _ := none
  toLowerCase s := s

def kindColumn : VirtualViewColumn :=
  ⟨"kind", true, .ASCENDING, .NONE, fun _ => by decide⟩

/-- A view by one column. -/
def byKind : VirtualView where
  columns := [kindColumn]
  categorizationStyle := .CATEGORY_THEN_DOCUMENT
  isAccepted _ _ _ := true
  env := plainRuntime

/-- The category of kind `a`. -/
def kindPath : EntryPath := [⟨true, [.string "a", .comma, .endArray], "virtualview:"⟩]

end MindooDB
