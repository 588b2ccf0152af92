import MindooDB.View.Comparator
import MindooDB.View.Flush

/-!
# View/Sorted — the sorted children are sorted

What is remembered of the sorted children is spliced by binary search, which keeps it sorted where
the comparator orders; what is not remembered is sorted when it is read.  So after every batch
`getChildEntries` lists the children in order (`sortedChildren_run`).  The phases of a batch are gone
through once, for whatever its moves keep (`KeptByMoves`).
-/

namespace MindooDB

open List Option ViewIndex

variable {view : VirtualView} {s s' : ViewIndex}

/-! ## What the moves of a batch keep -/

/-- What is told the entries above one that is hung up or taken down. -/
inductive TellsAbove (view : VirtualView) : (VirtualViewEntryData → VirtualViewEntryData) → Prop
  | docUp (values : ColumnValues) : TellsAbove view (view.docUp values)
  | docDown (values : ColumnValues) : TellsAbove view (view.docDown values)
  | incrementCategories : TellsAbove view (·.incrementDescendantCount true)
  | unchanged : TellsAbove view id

theorem TellsAbove.leavesPlaces {up : VirtualViewEntryData → VirtualViewEntryData}
    (h : TellsAbove view up) : LeavesPlaces up := by
  cases h with
  | docUp values => exact LeavesPlaces.docUp view values
  | docDown values => exact LeavesPlaces.docDown view values
  | incrementCategories => exact LeavesPlaces.incrementDescendantCount true
  | unchanged => exact LeavesPlaces.unchanged

/-- **A property that every move of a batch keeps**, given the documents that it adds. -/
structure KeptByMoves (view : VirtualView) (docs : List VirtualView.DocEntry)
    (I : ViewIndex → Prop) : Prop where
  hang : ∀ {s : ViewIndex} {doc step counter up parent}, doc ∈ docs → step ∈ view.docScript doc →
    Tree view.env s →
    s.entries.get? ((step.madeEntry view doc counter).sortKey.toKey view.env :: parent) = none →
    TellsAbove view up → I s → I (s.hang view.env (step.madeEntry view doc counter) up parent)
  unhang : ∀ {s entry up key parent}, Tree view.env s →
    s.entries.get? (key :: parent) = some entry → TellsAbove view up → I s →
    I (s.unhang view.env entry up key parent)
  relist : ∀ {s s'}, s'.entries = s.entries → I s → I s'
  flush : ∀ {s}, Tree view.env s → I s → I (view.processPendingSiblingIndexUpdates s)

namespace KeptByMoves

open VirtualView

variable {I : ViewIndex → Prop} {docs : List DocEntry}

section

variable (h : KeptByMoves view docs I)

include h

theorem hangsMany {doc : DocEntry} (hdoc : doc ∈ docs)
    (hmany : view.HangsMany doc (view.docScript doc) s s') (htree : Tree view.env s) (hI : I s) :
    I s' := by
  induction hmany with
  | refl => exact hI
  | @tail s₁ _ hmany hstep ih =>
    have htree' := HangsMany.tree hmany htree
    cases hstep with
    | @document parent hstep _ hfresh =>
      have hhang : I (s₁.hang view.env ((Placement.document parent).madeEntry view doc 0)
          (view.docUp (VirtualViewEntryData.definedValues doc.columnValues)) parent) :=
        h.hang hdoc hstep htree' hfresh (.docUp _) ih
      exact hhang
    | @category itemName value descending indentLevel parent hstep _ hfresh _ counter =>
      have hhang : I (s₁.hang view.env
          ((Placement.category itemName value descending indentLevel parent).madeEntry view doc
            counter) (·.incrementDescendantCount true) parent) :=
        h.hang hdoc hstep htree' hfresh .incrementCategories ih
      refine h.relist ?_ hhang
      rfl

theorem foldl_addOne {added : List DocEntry} (hadded : added ⊆ docs) (htree : Tree view.env s)
    (hI : I s) : I (added.foldl view.addOne s) := by
  induction added generalizing s with
  | nil => exact hI
  | cons doc added ih =>
    obtain ⟨hdoc, hrest⟩ := cons_subset.mp hadded
    obtain ⟨hmany, -⟩ := foldl_script_spec doc htree htree.root
      (List.Subset.refl (view.docScript doc))
    have hplaced : I (view.addOne s doc) := by
      refine h.relist ?_ (h.hangsMany hdoc hmany htree hI)
      rfl
    exact ih hrest (added_addOne htree doc).tree hplaced

theorem unhangsMany {occurrences : List Occurrence} (hlisted : Listed occurrences)
    (hmany : Relation.ReflTransGen (view.Unhangs occurrences) s s') (htree : Tree view.env s)
    (hI : I s) : I s' := by
  have hboth : Tree view.env s' ∧ I s' := by
    induction hmany with
    | refl => exact ⟨htree, hI⟩
    | tail _ hstep ih =>
      refine ⟨hstep.tree hlisted ih.1, ?_⟩
      obtain ⟨-, -, -, -, hget⟩ := hstep
      exact h.unhang ih.1 hget (.docDown _) ih.2
  exact hboth.2

theorem dropsMany (hmany : Relation.ReflTransGen view.Drops s s') (htree : Tree view.env s)
    (hcounts : HasCounts s) (hI : I s) : I s' := by
  induction hmany with
  | refl => exact hI
  | tail hmany hdrop ih =>
    obtain ⟨htree', -⟩ := dropsMany_spec hmany htree hcounts
    obtain ⟨hget, -, -⟩ := hdrop
    refine h.relist ?_ (h.unhang htree' hget .unchanged ih)
    rfl

end

/-- **What every move keeps, every batch keeps.** -/
theorem applyChanges {change : VirtualViewDataChange}
    (h : KeptByMoves view (view.acceptedDocs change) I) (hs : Settled view.env s) (hI : I s) :
    I (view.applyChanges s change) := by
  have hremoved := removedBy_applyRemovals change hs
  have hadded := added_applyAdditions change hs
  have hremovals : I (view.applyRemovals change s).1 :=
    h.relist hremoved.entries
      (h.unhangsMany (hs.lists.listed change) (removed_takenOut change hs).steps hs.tree hI)
  have hadditions : I (view.applyAdditions change (view.applyRemovals change s).1) := by
    rw [applyAdditions_eq]
    exact h.foldl_addOne (List.Subset.refl _) hremoved.tree hremovals
  have hbefore := h.dropsMany (dropped_beforeFlush change hs).steps hadded.tree
    (hadded.counts hremoved.counts) hadditions
  exact h.flush (settled_beforeFlush change hs).tree hbefore

theorem run {changes : List VirtualViewDataChange}
    (h : ∀ change ∈ changes, KeptByMoves view (view.acceptedDocs change) I)
    (hinitial : I view.initial) : I (view.run changes) := by
  induction changes using List.reverseRecOn with
  | nil => exact hinitial
  | append_singleton changes change ih =>
    rw [run_concat]
    exact (h change (mem_append_right _ (mem_singleton_self _))).applyChanges
      (settled_run changes) (ih fun change hchange => h change (mem_append_left _ hchange))

end KeptByMoves

/-- **A property that every step of a batch keeps**, whatever is hung up. -/
structure KeptBySteps (view : VirtualView) (I : ViewIndex → Prop) : Prop where
  hang : ∀ {s child up parent}, Tree view.env s →
    s.entries.get? (child.sortKey.toKey view.env :: parent) = none → LeavesPlaces up →
    child.sortedChildrenCache = none → child.position = none → I s →
    I (s.hang view.env child up parent)
  unhang : ∀ {s entry up key parent}, Tree view.env s →
    s.entries.get? (key :: parent) = some entry → LeavesPlaces up → I s →
    I (s.unhang view.env entry up key parent)
  relist : ∀ {s s'}, s'.entries = s.entries → I s → I s'
  flush : ∀ {s}, Tree view.env s → I s → I (view.processPendingSiblingIndexUpdates s)

namespace KeptBySteps

variable {I : ViewIndex → Prop}

theorem keptByMoves (h : KeptBySteps view I) (docs : List VirtualView.DocEntry) :
    KeptByMoves view docs I where
  hang {s doc step counter up parent} _ _ htree hfresh hup hI := by
    have hnew : (step.madeEntry view doc counter).sortedChildrenCache = none
        ∧ (step.madeEntry view doc counter).position = none := by
      cases step <;> exact ⟨rfl, rfl⟩
    exact h.hang htree hfresh hup.leavesPlaces hnew.1 hnew.2 hI
  unhang htree hget hup hI := h.unhang htree hget hup.leavesPlaces hI
  relist := h.relist
  flush := h.flush

theorem run (h : KeptBySteps view I) (hinitial : I view.initial)
    (changes : List VirtualViewDataChange) : I (view.run changes) :=
  KeptByMoves.run (fun _ _ => h.keptByMoves _) hinitial

end KeptBySteps

/-! ## Sorted children -/

/-- **The sorted children of every entry are in order.** -/
def SortedChildren (env : Runtime) (s : ViewIndex) : Prop :=
  ∀ p e, s.entries.get? p = some e →
    (s.getChildEntries env p).Pairwise fun a b => e.childrenComparator.compare env a b ≤ 0

section Steps

variable {env : Runtime} {child entry : VirtualViewEntryData}
  {up : VirtualViewEntryData → VirtualViewEntryData} {key : EntryKey} {parent p : EntryPath}

/-- Where a step keeps the sorted children of an entry, they stay in order. -/
theorem SortedChildren.of_eq (h : SortedChildren env s) {e e' : VirtualViewEntryData}
    (hget : s.entries.get? p = some e) (hsame : SameEntry e e')
    (hchildren : s'.getChildEntries env p = s.getChildEntries env p) :
    (s'.getChildEntries env p).Pairwise fun a b => e'.childrenComparator.compare env a b ≤ 0 := by
  rw [hchildren, hsame.childrenComparator]
  exact h p e hget

/-- What an entry remembers is in order, or what it lists is sorted. -/
theorem pairwise_getChildEntries (hcollates : env.Collates) {e : VirtualViewEntryData}
    (hget : s.entries.get? p = some e)
    (hcache : ∀ sorted, e.sortedChildrenCache = some sorted →
      sorted.Pairwise fun a b => e.childrenComparator.compare env a b ≤ 0) :
    (s.getChildEntries env p).Pairwise fun a b => e.childrenComparator.compare env a b ≤ 0 := by
  rw [getChildEntries, hget]
  cases hsorted : e.sortedChildrenCache with
  | none =>
    simp only [hsorted, getD_none]
    exact pairwise_sortBy ((e.childrenComparator.orders_compare hcollates).consistent _)
  | some sorted =>
    simp only [hsorted, getD_some]
    exact hcache sorted hsorted

theorem SortedChildren.hang (h : SortedChildren env s) (hcollates : env.Collates)
    (htree : Tree env s) (hup : LeavesPlaces up)
    (hfresh : s.entries.get? (child.sortKey.toKey env :: parent) = none)
    (hcache : child.sortedChildrenCache = none) (hposition : child.position = none) :
    SortedChildren env (s.hang env child up parent) := by
  intro p e' hget
  by_cases hp : p = parent
  · subst hp
    have hget' := hget
    rw [get?_hang, if_neg (by simp)] at hget'
    obtain ⟨e, he, rfl⟩ := map_eq_some_iff.mp hget'
    rw [if_pos suffix_rfl, if_pos rfl] at hget ⊢
    have hsame := (SameEntry.gainChild env child e).trans
      (hup.entry (gainChild env child e))
    refine pairwise_getChildEntries hcollates hget fun sorted hsorted => ?_
    rw [(hup.place _).sortedChildrenCache] at hsorted
    obtain ⟨before, hbefore, rfl⟩ := map_eq_some_iff.mp hsorted
    have horder := h p e he
    rw [getChildEntries_cached he hbefore] at horder
    rw [hsame.childrenComparator]
    exact pairwise_insertIdx (e.childrenComparator.orders_compare hcollates) horder child.sortKey
  · have hchildren := (changesChildren_hang htree hup hfresh hcache hposition).children hp hget
    rcases some_of_hang hup.entry hget with ⟨rfl, rfl⟩ | ⟨-, e, he, hsame⟩
    · rw [hchildren, getChildEntries_of_absent hfresh]
      exact List.Pairwise.nil
    · exact h.of_eq he hsame hchildren

theorem SortedChildren.unhang (h : SortedChildren env s) (hcollates : env.Collates)
    (hup : LeavesPlaces up) : SortedChildren env (s.unhang env child up key parent) := by
  intro p e' hget
  by_cases hp : p = parent
  · subst hp
    have hget' := hget
    rw [get?_unhang, if_neg (by simp)] at hget'
    obtain ⟨e, he, rfl⟩ := map_eq_some_iff.mp hget'
    rw [if_pos suffix_rfl, if_pos rfl] at hget ⊢
    have hsame := (SameEntry.loseChild env child e).trans
      (hup.entry (loseChild env child e))
    refine pairwise_getChildEntries hcollates hget fun sorted hsorted => ?_
    rw [(hup.place _).sortedChildrenCache] at hsorted
    obtain ⟨before, hbefore, hsplice⟩ := bind_eq_some_iff.mp hsorted
    obtain ⟨i, -, rfl⟩ := map_eq_some_iff.mp hsplice
    have horder := h p e he
    rw [getChildEntries_cached he hbefore] at horder
    rw [hsame.childrenComparator]
    exact horder.sublist (eraseIdx_sublist _ _)
  · obtain ⟨-, e, he, hsame⟩ := some_of_unhang hup.entry hget
    exact h.of_eq he hsame ((changesChildren_unhang hup).children hp hget)

theorem getChildEntries_of_entries_eq (h : s'.entries = s.entries) (p : EntryPath) :
    s'.getChildEntries env p = s.getChildEntries env p := by
  rw [getChildEntries, getChildEntries, h]

end Steps

/-- **The steps keep the sorted children** an arrangement of the children, and in order. -/
theorem keptBySteps_sortedChildren (hcollates : view.env.Collates) :
    KeptBySteps view fun s => Cached s ∧ SortedChildren view.env s where
  hang htree hfresh hup hcache hposition h :=
    ⟨h.1.hang hup hfresh hcache, h.2.hang hcollates htree hup hfresh hcache hposition⟩
  unhang htree hget hup h := ⟨h.1.unhang htree hup hget, h.2.unhang hcollates hup⟩
  relist {s s'} heq h := by
    refine ⟨fun p e sorted hget hcache => ?_, fun p e hget => ?_⟩
    · rw [heq] at hget
      rw [childKeys, heq]
      exact h.1 p e sorted hget hcache
    · rw [getChildEntries_of_entries_eq heq]
      exact h.2 p e (heq ▸ hget)
  flush {s} htree h := by
    have hflush := flushes_processPendingSiblingIndexUpdates view htree h.1
    refine ⟨hflush.cached, fun p e' hget => ?_⟩
    obtain ⟨e, he, hrenumbered⟩ :=
      (renumbersMany_some (renumbers_processPendingSiblingIndexUpdates view s)).1 hget
    exact h.2.of_eq he hrenumbered.same (hflush.children p)

/-- **After every run** the sorted children are the children, in order. -/
theorem sortedChildren_run (hcollates : view.env.Collates)
    (changes : List VirtualViewDataChange) :
    Cached (view.run changes) ∧ SortedChildren view.env (view.run changes) := by
  refine (keptBySteps_sortedChildren hcollates).run ⟨fun p e sorted hget hcache => ?_,
    fun p e hget => ?_⟩ changes
  · rw [VirtualView.get?_initial] at hget
    split at hget
    · obtain rfl := some.inj hget
      exact nomatch hcache
    · exact nomatch hget
  · refine pairwise_getChildEntries hcollates hget fun sorted hcache => ?_
    rw [VirtualView.get?_initial] at hget
    split at hget
    · obtain rfl := some.inj hget
      exact nomatch hcache
    · exact nomatch hget

end MindooDB
