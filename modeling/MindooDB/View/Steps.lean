import MindooDB.View.Counts

/-!
# View/Steps — what the steps of a batch keep

A batch takes documents out, hangs documents up, drops the categories left empty and renumbers.  The
counts of children and documents survive each of these, and so do the lists of occurrences; the
counts of entries and categories below survive all but the dropping of a category, which is why
`HasCounts` and `HasDeepCounts` are kept apart.
-/

namespace MindooDB

open Option Relation ViewIndex VirtualView

/-! ## Renumbering -/

/-- Two states of an entry that differ in its number and in what it remembers of its children and
its position. -/
def Renumbered (e e' : VirtualViewEntryData) : Prop :=
  ∃ index cache position positionStr, e' = { e with
    siblingIndex := index, sortedChildrenCache := cache, position := position
    positionStr := positionStr }

variable {e e' : VirtualViewEntryData} {env : Runtime} {occurrences : List Occurrence}

theorem Renumbered.same (h : Renumbered e e') : SameEntry e e' := by
  obtain ⟨_, _, _, _, rfl⟩ := h
  exact ⟨rfl, rfl, rfl, rfl, rfl⟩

theorem Renumbered.refl (e : VirtualViewEntryData) : Renumbered e e := ⟨_, _, _, _, rfl⟩

theorem Renumbered.trans {e'' : VirtualViewEntryData} (h : Renumbered e e')
    (h' : Renumbered e' e'') : Renumbered e e'' := by
  obtain ⟨_, _, _, _, rfl⟩ := h
  obtain ⟨_, _, _, _, rfl⟩ := h'
  exact ⟨_, _, _, _, rfl⟩

theorem renumbered_setSiblingIndex (index : ℕ) (e : VirtualViewEntryData) :
    Renumbered e (e.setSiblingIndex index) := by
  rw [VirtualViewEntryData.setSiblingIndex]
  split
  · exact ⟨_, _, _, _, rfl⟩
  · exact ⟨_, _, _, _, rfl⟩

/-- Renumbering one entry, or forgetting which are to be renumbered. -/
inductive Renumbers : ViewIndex → ViewIndex → Prop
  | entry (s : ViewIndex) (p : EntryPath) {f : VirtualViewEntryData → VirtualViewEntryData}
      (hf : ∀ e, Renumbered e (f e)) : Renumbers s (s.modify p f)
  | pending (s : ViewIndex) (pending : LinkedSet EntryPath) :
      Renumbers s { s with pendingSiblingIndexFlush := pending }

theorem renumbers_flushSiblingIndexes (view : VirtualView) (s : ViewIndex) (path : EntryPath) :
    ReflTransGen Renumbers s (view.flushSiblingIndexes s path) := by
  have hchildren : ∀ (children : List (ViewEntrySortKey × ℕ)) (s : ViewIndex),
      ReflTransGen Renumbers s (children.foldl
        (fun s child => s.modify (child.1.toKey view.env :: path)
          (·.setSiblingIndex (child.2 + 1))) s) := by
    intro children
    induction children with
    | nil => exact fun s => ReflTransGen.refl
    | cons child children ih =>
      intro s
      exact ReflTransGen.head
        (Renumbers.entry s _ (renumbered_setSiblingIndex _)) (ih _)
  exact ReflTransGen.head (Renumbers.entry s path fun _ => ⟨_, _, _, _, rfl⟩)
    (hchildren _ _)

/-- **The last phase of a batch only renumbers.** -/
theorem renumbers_processPendingSiblingIndexUpdates (view : VirtualView) (s : ViewIndex) :
    ReflTransGen Renumbers s (view.processPendingSiblingIndexUpdates s) := by
  have hall : ∀ (paths : List EntryPath) (s : ViewIndex),
      ReflTransGen Renumbers s (paths.foldl view.flushSiblingIndexes s) := by
    intro paths
    induction paths with
    | nil => exact fun s => ReflTransGen.refl
    | cons path paths ih => exact fun s => (renumbers_flushSiblingIndexes view s path).trans (ih _)
  exact (hall _ s).tail (Renumbers.pending _ ∅)

namespace Renumbers

variable {s s' : ViewIndex}

section

variable (h : Renumbers s s')

include h

theorem some_of {p : EntryPath} (hget : s'.entries.get? p = some e') :
    ∃ e, s.entries.get? p = some e ∧ Renumbered e e' := by
  cases h with
  | entry q hf =>
    rw [ViewIndex.modify, LinkedMap.get?_modify] at hget
    split at hget
    · obtain ⟨e, he, rfl⟩ := map_eq_some_iff.mp hget
      exact ⟨e, he, hf e⟩
    · exact ⟨e', hget, ⟨_, _, _, _, rfl⟩⟩
  | pending => exact ⟨e', hget, ⟨_, _, _, _, rfl⟩⟩

theorem of_some {p : EntryPath} (hget : s.entries.get? p = some e) :
    ∃ e', s'.entries.get? p = some e' ∧ Renumbered e e' := by
  cases h with
  | @entry q f hf =>
    rw [ViewIndex.modify, LinkedMap.get?_modify, hget]
    split
    · exact ⟨f e, rfl, hf e⟩
    · exact ⟨e, rfl, ⟨_, _, _, _, rfl⟩⟩
  | pending => exact ⟨e, hget, ⟨_, _, _, _, rfl⟩⟩

theorem tally_eq (P : EntryPath → Prop) [DecidablePred P] (isCategory : Bool) :
    s'.tally P isCategory = s.tally P isCategory := by
  cases h with
  | entry q hf =>
    exact LinkedMap.sumOver_modify _ _ fun e _ => tallyTerm_eq (hf e).same isCategory q
  | pending => rfl

theorem entriesByDocId_eq : s'.entriesByDocId = s.entriesByDocId := by
  cases h <;> rfl

/-- Renumbering keeps the shape of the tree. -/
theorem tree (htree : Tree env s) : Tree env s' := by
  have hkeep : ∀ {p}, s.HasCategory p → s'.HasCategory p := by
    rintro p ⟨e, he, hcat⟩
    obtain ⟨e', he', hsame⟩ := h.of_some he
    exact ⟨e', he', hsame.same.isCategory.trans hcat⟩
  refine ⟨hkeep htree.root, fun hget => ?_, fun hget => ?_⟩
  · obtain ⟨e, he, -⟩ := h.some_of hget
    exact hkeep (htree.parent he)
  · obtain ⟨e, he, hsame⟩ := h.some_of hget
    rw [hsame.same.sortKey]
    exact htree.key he

end

end Renumbers

/-! ## The counts of the whole tree -/

/-- The counts of children and documents are right everywhere. -/
def HasCounts (s : ViewIndex) : Prop := ∀ p e, s.entries.get? p = some e → Counts s p e

/-- The counts of entries and categories below are right everywhere. -/
def HasDeepCounts (s : ViewIndex) : Prop := ∀ p e, s.entries.get? p = some e → DeepCounts s p e

section Relist

variable {s s' : ViewIndex}

theorem tally_of_entries_eq (h : s'.entries = s.entries) (P : EntryPath → Prop) [DecidablePred P]
    (isCategory : Bool) : s'.tally P isCategory = s.tally P isCategory := by
  rw [tally, total, h]
  rfl

/-- The counts are about the tree alone. -/
theorem HasCounts.of_entries_eq (hc : HasCounts s) (h : s'.entries = s.entries) :
    HasCounts s' := by
  intro p e hget
  rw [h] at hget
  have hcounts := hc p e hget
  constructor
  · rw [hcounts.childCategoryCount, ViewIndex.childrenOf, ViewIndex.childrenOf, tally_of_entries_eq h]
  · rw [hcounts.childDocumentCount, ViewIndex.childrenOf, ViewIndex.childrenOf, tally_of_entries_eq h]
  · simp only [hcounts.childCount, ViewIndex.childrenOf, tally_of_entries_eq h]
  · rw [hcounts.descendantDocumentCount, descendantsOf, descendantsOf, tally_of_entries_eq h]

theorem HasDeepCounts.of_entries_eq (hc : HasDeepCounts s) (h : s'.entries = s.entries) :
    HasDeepCounts s' := by
  intro p e hget
  rw [h] at hget
  have hcounts := hc p e hget
  constructor
  · rw [hcounts.descendantCategoryCount, descendantsOf, descendantsOf, tally_of_entries_eq h]
  · simp only [hcounts.descendantCount, descendantsOf, tally_of_entries_eq h]

end Relist

section Steps

variable {view : VirtualView} {doc : DocEntry} {steps : List Placement}
  {s s' : ViewIndex}

theorem blank_docEntryData : Blank (view.docEntryData doc) := ⟨rfl, rfl, rfl, rfl, rfl, rfl⟩

variable {up : VirtualViewEntryData → VirtualViewEntryData}

variable {parent : EntryPath}

theorem hasCounts_hang {child : VirtualViewEntryData} (htree : Tree env s)
    (hfresh : s.entries.get? (child.sortKey.toKey env :: parent) = none)
    (hup : TellsDocuments child.isCategory 1 up) (hblank : Blank child) (h : HasCounts s) :
    HasCounts (s.hang env child up parent) := by
  intro p e hget
  rw [get?_hang] at hget
  split at hget
  · rename_i hp
    obtain rfl := some.inj hget
    rw [hp]
    exact (counts_of_new htree hfresh hup.same hblank).1
  · obtain ⟨e₀, he₀, rfl⟩ := map_eq_some_iff.mp hget
    exact (h p e₀ he₀).changed (shifts_hang hfresh hup.same) countsChild_gainChild hup

theorem hasDeepCounts_hang {child : VirtualViewEntryData} (htree : Tree env s)
    (hfresh : s.entries.get? (child.sortKey.toKey env :: parent) = none)
    (hsame : ∀ e, SameEntry e (up e)) (hup : TellsAll child.isCategory 1 up)
    (hblank : Blank child) (h : HasDeepCounts s) :
    HasDeepCounts (s.hang env child up parent) := by
  intro p e hget
  rw [get?_hang] at hget
  split at hget
  · rename_i hp
    obtain rfl := some.inj hget
    rw [hp]
    exact (counts_of_new htree hfresh hsame hblank).2
  · obtain ⟨e₀, he₀, rfl⟩ := map_eq_some_iff.mp hget
    exact (h p e₀ he₀).changed (shifts_hang hfresh hsame) countsChild_gainChild hup

theorem hasCounts_unhang {entry : VirtualViewEntryData} {key : EntryKey}
    (hget : s.entries.get? (key :: parent) = some entry)
    (hup : TellsDocuments entry.isCategory (-1) up) (h : HasCounts s) :
    HasCounts (s.unhang env entry up key parent) := by
  intro p e hp
  rw [get?_unhang] at hp
  split at hp
  · cases hp
  · obtain ⟨e₀, he₀, rfl⟩ := map_eq_some_iff.mp hp
    exact (h p e₀ he₀).changed (shifts_unhang hget hup.same) countsChild_loseChild hup

theorem hasDeepCounts_unhang {env : Runtime} {entry : VirtualViewEntryData}
    {up : VirtualViewEntryData → VirtualViewEntryData} {key : EntryKey} {parent : EntryPath}
    (hget : s.entries.get? (key :: parent) = some entry) (hsame : ∀ e, SameEntry e (up e))
    (hup : TellsAll entry.isCategory (-1) up) (h : HasDeepCounts s) :
    HasDeepCounts (s.unhang env entry up key parent) := by
  intro p e hp
  rw [get?_unhang] at hp
  split at hp
  · cases hp
  · obtain ⟨e₀, he₀, rfl⟩ := map_eq_some_iff.mp hp
    exact (h p e₀ he₀).changed (shifts_unhang hget hsame) countsChild_loseChild hup

/-- Placing a document keeps all counts. -/
theorem VirtualView.Hangs.counts (h : view.Hangs doc steps s s') (htree : Tree view.env s) :
    (HasCounts s → HasCounts s') ∧ (HasDeepCounts s → HasDeepCounts s') := by
  cases h with
  | document _ _ hfresh =>
    exact ⟨hasCounts_hang htree hfresh (tellsDocuments_docUp view _) blank_docEntryData,
      hasDeepCounts_hang htree hfresh (SameEntry.docUp view _) (tellsAll_docUp view _)
        blank_docEntryData⟩
  | @category itemName value descending indentLevel parent _ _ hfresh _ counter =>
    have hfresh' : s.entries.get? ((view.categoryEntryData itemName value descending indentLevel
      counter).sortKey.toKey view.env :: parent) = none := hfresh
    exact ⟨fun h => (hasCounts_hang htree hfresh' tellsDocuments_incrementCategories
        ⟨rfl, rfl, rfl, rfl, rfl, rfl⟩ h).of_entries_eq rfl,
      fun h => (hasDeepCounts_hang htree hfresh' (SameEntry.incrementDescendantCount true)
        tellsAll_incrementCategories ⟨rfl, rfl, rfl, rfl, rfl, rfl⟩ h).of_entries_eq rfl⟩

/-- Taking a document out keeps all counts. -/
theorem VirtualView.Unhangs.counts (hlisted : Listed occurrences)
    (h : view.Unhangs occurrences s s') (htree : Tree view.env s) :
    (HasCounts s → HasCounts s') ∧ (HasDeepCounts s → HasDeepCounts s') := by
  obtain ⟨ho, hdoc, -, hpath, hget⟩ := h
  obtain ⟨key', parent', hpath', hkey⟩ := hlisted _ ho hdoc
  obtain ⟨rfl, rfl⟩ := List.cons.inj (hpath.symm.trans hpath')
  have hcat := (htree.isCategory_eq hget).trans hkey
  have hdocuments := tellsDocuments_docDown view
  have hall := tellsAll_docDown view
  rw [← hcat] at hdocuments hall
  exact ⟨hasCounts_unhang hget (hdocuments _),
    hasDeepCounts_unhang hget (SameEntry.docDown view _) (hall _)⟩

/-- Renumbering keeps all counts. -/
theorem Renumbers.counts (h : Renumbers s s') :
    (HasCounts s → HasCounts s') ∧ (HasDeepCounts s → HasDeepCounts s') := by
  constructor
  · intro hc p e' hget
    obtain ⟨e, he, ⟨_, _, _, _, rfl⟩⟩ := h.some_of hget
    have hcounts := hc p e he
    constructor
    · exact hcounts.childCategoryCount.trans (h.tally_eq _ _).symm
    · exact hcounts.childDocumentCount.trans (h.tally_eq _ _).symm
    · simpa only [ViewIndex.childrenOf, h.tally_eq] using hcounts.childCount
    · exact hcounts.descendantDocumentCount.trans (h.tally_eq _ _).symm
  · intro hc p e' hget
    obtain ⟨e, he, ⟨_, _, _, _, rfl⟩⟩ := h.some_of hget
    have hcounts := hc p e he
    constructor
    · exact hcounts.descendantCategoryCount.trans (h.tally_eq _ _).symm
    · simpa only [descendantsOf, h.tally_eq] using hcounts.descendantCount

theorem VirtualView.HangsMany.counts (h : view.HangsMany doc steps s s')
    (htree : Tree view.env s) :
    (HasCounts s → HasCounts s') ∧ (HasDeepCounts s → HasDeepCounts s') := by
  induction h with
  | refl => exact ⟨id, id⟩
  | tail hmany hstep ih =>
    have hnext := hstep.counts (HangsMany.tree hmany htree)
    exact ⟨fun hc => hnext.1 (ih.1 hc), fun hc => hnext.2 (ih.2 hc)⟩

theorem unhangsMany_counts (hlisted : Listed occurrences)
    (h : ReflTransGen (view.Unhangs occurrences) s s') (htree : Tree view.env s) :
    Tree view.env s' ∧ (HasCounts s → HasCounts s') ∧ (HasDeepCounts s → HasDeepCounts s') := by
  induction h with
  | refl => exact ⟨htree, id, id⟩
  | tail _ hstep ih =>
    have hnext := hstep.counts hlisted ih.1
    exact ⟨hstep.tree hlisted ih.1, fun hc => hnext.1 (ih.2.1 hc), fun hc => hnext.2 (ih.2.2 hc)⟩

theorem renumbersMany_spec (h : ReflTransGen Renumbers s s')
    (htree : Tree env s) : Tree env s' ∧ s'.entriesByDocId = s.entriesByDocId
      ∧ (HasCounts s → HasCounts s') ∧ (HasDeepCounts s → HasDeepCounts s') := by
  induction h with
  | refl => exact ⟨htree, rfl, id, id⟩
  | tail _ hstep ih =>
    have hnext := hstep.counts
    exact ⟨hstep.tree ih.1, hstep.entriesByDocId_eq.trans ih.2.1,
      fun hc => hnext.1 (ih.2.2.1 hc), fun hc => hnext.2 (ih.2.2.2 hc)⟩

theorem renumbersMany_some {p : EntryPath} (h : ReflTransGen Renumbers s s') :
    (∀ {e'}, s'.entries.get? p = some e' → ∃ e, s.entries.get? p = some e ∧ Renumbered e e')
      ∧ ∀ {e}, s.entries.get? p = some e → ∃ e', s'.entries.get? p = some e'
        ∧ Renumbered e e' := by
  induction h with
  | refl => exact ⟨fun h => ⟨_, h, Renumbered.refl _⟩, fun h => ⟨_, h, Renumbered.refl _⟩⟩
  | tail _ hstep ih =>
    constructor
    · intro e' hget
      obtain ⟨e₁, he₁, h₁⟩ := hstep.some_of hget
      obtain ⟨e, he, h₀⟩ := ih.1 he₁
      exact ⟨e, he, h₀.trans h₁⟩
    · intro e hget
      obtain ⟨e₁, he₁, h₁⟩ := ih.2 hget
      obtain ⟨e₂, he₂, h₂⟩ := hstep.of_some he₁
      exact ⟨e₂, he₂, h₁.trans h₂⟩

end Steps

/-! ## The lists of occurrences -/

/-- How a document is listed under a key. -/
def ListedAs (key : JSString) (o : Occurrence) : Prop :=
  o.isCategory = false → (∃ entryKey parent, o.path = entryKey :: parent
    ∧ entryKey.isCategory = false ∧ entryKey.scopedDocId = key)
    ∧ scopedDocIdKey o.origin o.docId = key

def HasLists (s : ViewIndex) : Prop :=
  ∀ key occurrences, s.entriesByDocId.get? key = some occurrences →
    ∀ o ∈ occurrences, ListedAs key o

section Lists

variable {view : VirtualView} {doc : DocEntry} {steps : List Placement}
  {s s' : ViewIndex}

open VirtualView

theorem HasLists.listed (h : HasLists s) (change : VirtualViewDataChange) :
    Listed (occurrencesToRemove change s) := by
  intro o ho hdoc
  obtain ⟨docId, -, ho⟩ := List.mem_flatMap.mp ho
  cases hget : s.entriesByDocId.get? (scopedDocIdKey change.origin docId) with
  | none => exact absurd ho (by simp [hget])
  | some occurrences =>
    rw [hget, getD_some] at ho
    obtain ⟨⟨entryKey, parent, hpath, hkey, -⟩, -⟩ := h _ _ hget o ho hdoc
    exact ⟨entryKey, parent, hpath, hkey⟩

theorem HasLists.set (h : HasLists s) {key : JSString} (hnew : ∀ o ∈ occurrences, ListedAs key o)
    (hs : s'.entriesByDocId = s.entriesByDocId.set key occurrences) : HasLists s' := by
  intro key' occurrences' hget o ho
  rw [hs, LinkedMap.get?_set] at hget
  split at hget
  · rename_i hkey
    obtain rfl := some.inj hget
    exact hkey ▸ hnew o ho
  · exact h _ _ hget o ho

theorem VirtualView.HangsMany.lists (h : view.HangsMany doc steps s s') (hl : HasLists s) :
    HasLists s' := by
  induction h with
  | refl => exact hl
  | tail _ hstep ih =>
    cases hstep with
    | document => exact ih
    | category _ _ _ lists counter hlists =>
      refine ih.set (fun o ho hdoc => ?_) hlists
      obtain rfl := List.mem_singleton.mp ho
      exact absurd hdoc (by simp [categoryOccurrence])

theorem listedAs_occurrenceAt (parent : EntryPath) :
    ListedAs (scopedDocIdKey doc.origin doc.docId) (view.occurrenceAt doc parent) :=
  fun _ => ⟨⟨_, parent, rfl, rfl, rfl⟩, rfl⟩

theorem HasLists.addOne (h : HasLists s) (hmany : view.HangsMany doc steps s
    ((view.docScript doc).foldl (view.place doc) s)) : HasLists (view.addOne s doc) := by
  refine (hmany.lists h).set (fun o ho => ?_) rfl
  obtain ⟨parent, -, rfl⟩ := List.mem_map.mp ho
  exact listedAs_occurrenceAt parent

end Lists

end MindooDB
