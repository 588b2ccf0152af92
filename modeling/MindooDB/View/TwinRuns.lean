import MindooDB.View.Positions
import MindooDB.View.TwinBatches

/-!
# View/TwinRuns — twins through whole runs

What every batch keeps of a view is `Maintained`; it is all that a batch relies on.  Maintained
twins stay twins whatever batches both are given, and twins show the same (`Twins.sameView`).
-/

namespace MindooDB

open List VirtualView

variable {view : VirtualView} {s s' : ViewIndex} {change : VirtualViewDataChange}

/-! ## Positions not read -/

/-- No position of an entry below the root is remembered. -/
def Unread (s : ViewIndex) : Prop :=
  ∀ k p e, s.entries.get? (k :: p) = some e → e.position = none

theorem keptBySteps_unread : KeptBySteps view fun s => Cached s ∧ Unread s where
  hang htree hfresh hup hcache hposition h := by
    refine ⟨h.1.hang hup hfresh hcache, fun k p e' hget => ?_⟩
    have hchange := changesChildren_hang htree hup hfresh hcache hposition
    rcases hchange.old_or_new hget with ⟨e, he, -, hsame⟩ | ⟨-, hnone, -⟩
    · rw [hsame, h.2 k p e he]
    · exact hnone
  unhang htree hget hup h := by
    refine ⟨h.1.unhang htree hup hget, fun k p e' hget' => ?_⟩
    rcases (changesChildren_unhang hup).old_or_new hget' with ⟨e, he, -, hsame⟩ | ⟨-, hnone, -⟩
    · rw [hsame, h.2 k p e he]
    · exact hnone
  relist {s s'} heq h := by
    refine ⟨fun p e sorted hget hcache => ?_, fun k p e hget => h.2 k p e (heq ▸ hget)⟩
    rw [heq] at hget
    rw [ViewIndex.childKeys, heq]
    exact h.1 p e sorted hget hcache
  flush {s} htree h := by
    have hflush := flushes_processPendingSiblingIndexUpdates view htree h.1
    refine ⟨hflush.cached, fun k p e' hget => ?_⟩
    obtain ⟨e, he, hnumbering⟩ := hflush.entry hget
    have hposition := congrArg Prod.snd hnumbering
    have hnone := h.2 k p e he
    split at hposition
    · rw [renumber] at hposition
      split at hposition
      · exact hposition.trans hnone
      · exact hposition
    · exact hposition.trans hnone

/-! ## Maintained views -/

/-- **A view as its batches keep it.** -/
structure Maintained (env : Runtime) (s : ViewIndex) : Prop where
  settled : Settled env s
  sorted : SortedChildren env s
  flushed : Flushed env s
  unread : Unread s
  indexed : Indexed s

namespace Maintained

theorem orderly (h : Maintained view.env s) : Orderly view.env s :=
  ⟨h.settled.tree, h.flushed.cached, h.sorted⟩

theorem removable (h : Maintained view.env s) : Removable view.env s :=
  ⟨h.orderly, h.settled.counts, h.settled.lists, h.indexed⟩

theorem applyChanges (h : Maintained view.env s) (hcollates : view.env.Collates)
    (hown : change.origin ≠ ORIGIN_VIRTUALVIEW) :
    Maintained view.env (view.applyChanges s change) where
  settled := settled_applyChanges change h.settled
  sorted := (((keptBySteps_sortedChildren hcollates).keptByMoves _).applyChanges h.settled
    ⟨h.flushed.cached, h.sorted⟩).2
  flushed := flushed_flush (settled_beforeFlush change h.settled).tree
    (keeps_beforeFlush change h.settled h.flushed.placed).placed
  unread := ((keptBySteps_unread.keptByMoves _).applyChanges h.settled ⟨h.flushed.cached, h.unread⟩).2
  indexed := h.indexed.applyChanges h.settled hown

end Maintained

variable {changes : List VirtualViewDataChange}

theorem maintained_run (hcollates : view.env.Collates)
    (hown : ∀ change ∈ changes, change.origin ≠ ORIGIN_VIRTUALVIEW) :
    Maintained view.env (view.run changes) := by
  induction changes using List.reverseRecOn with
  | nil =>
    refine ⟨settled_initial, (sortedChildren_run hcollates []).2, flushed_initial,
      fun k p e hget => ?_, indexed_run hown⟩
    rw [run, foldl_nil, get?_initial, if_neg (by simp)] at hget
    cases hget
  | append_singleton changes change ih =>
    rw [run_concat]
    exact (ih fun change h => hown change (mem_append_left _ h)).applyChanges hcollates
      (hown change (mem_append_right _ (mem_singleton_self _)))

/-- **A batch makes twins of twins.** -/
theorem Twins.applyChanges (h : Twins view.env s s') (hcollates : view.env.Collates)
    (hs : Maintained view.env s) (hs' : Maintained view.env s') (change : VirtualViewDataChange) :
    Twins view.env (view.applyChanges s change) (view.applyChanges s' change) := by
  rw [applyChanges_eq, applyChanges_eq]
  exact (TwinTrees.beforeFlush h hcollates hs.settled hs'.settled hs.removable hs'.removable
    change).flush

/-- **Whatever batches follow**, twins stay twins. -/
theorem Twins.foldl_applyChanges (h : Twins view.env s s') (hcollates : view.env.Collates)
    (hs : Maintained view.env s) (hs' : Maintained view.env s')
    (hown : ∀ change ∈ changes, change.origin ≠ ORIGIN_VIRTUALVIEW) :
    Twins view.env (changes.foldl view.applyChanges s) (changes.foldl view.applyChanges s')
      ∧ Maintained view.env (changes.foldl view.applyChanges s)
      ∧ Maintained view.env (changes.foldl view.applyChanges s') := by
  induction changes generalizing s s' with
  | nil => exact ⟨h, hs, hs'⟩
  | cons change changes ih =>
    have hfirst := hown change mem_cons_self
    exact ih (h.applyChanges hcollates hs hs' change) (hs.applyChanges hcollates hfirst)
      (hs'.applyChanges hcollates hfirst) fun change h => hown change (mem_cons_of_mem _ h)

/-! ## What a view shows -/

/-- Two entries that show the same. -/
structure SameShown (e e' : VirtualViewEntryData) : Prop where
  origin : e'.origin = e.origin
  docId : e'.docId = e.docId
  isCategory : e'.isCategory = e.isCategory
  columnValues : ∀ name, e'.columnValues.get? name = e.columnValues.get? name
  decryptionKeyId : e'.decryptionKeyId = e.decryptionKeyId
  indentLevels : e'.indentLevels = e.indentLevels
  childCount : e'.childCount = e.childCount
  childCategoryCount : e'.childCategoryCount = e.childCategoryCount
  childDocumentCount : e'.childDocumentCount = e.childDocumentCount
  descendantCount : e'.descendantCount = e.descendantCount
  descendantDocumentCount : e'.descendantDocumentCount = e.descendantDocumentCount
  descendantCategoryCount : e'.descendantCategoryCount = e.descendantCategoryCount
  totalValues : ∀ name, e'.totalValues.get? name = e.totalValues.get? name

/-- **Two views that show the same**: the same entries at the same paths, the siblings in the same
order, and every entry at the same position. -/
structure SameView (env : Runtime) (s s' : ViewIndex) : Prop where
  paths : ∀ p, s'.entries.has p = s.entries.has p
  entries : ∀ p e e', s.entries.get? p = some e → s'.entries.get? p = some e' → SameShown e e'
  siblings : ∀ p, (s'.getChildEntries env p).map (·.toKey env)
    = (s.getChildEntries env p).map (·.toKey env)
  positions : ∀ k p, s.entries.has (k :: p) = true → s'.getPosition (k :: p) = s.getPosition (k :: p)

section Shown

variable {env : Runtime} {p : EntryPath} {e e' : VirtualViewEntryData}

theorem Twins.map_getChildEntries (h : Twins env s s') (p : EntryPath) :
    (s'.getChildEntries env p).map (·.toKey env) = (s.getChildEntries env p).map (·.toKey env) :=
  map_eq_of_forall₂ (h.order p) fun _ _ hkey => hkey.toKey

theorem Twins.sameShown (h : Twins env s s') (hcounts : HasCounts s) (hcounts' : HasCounts s')
    (hget : s.entries.get? p = some e) (hget' : s'.entries.get? p = some e') : SameShown e e' := by
  obtain ⟨e₁, he₁, htwin⟩ := h.of_some hget
  obtain rfl := Option.some.inj (hget'.symm.trans he₁)
  have htally : ∀ kind, s'.childrenOf kind p = s.childrenOf kind p := by
    refine fun kind => (Twins.tally_eq _ kind (fun {q a} ha => ?_) fun {q a'} ha' => ?_).symm
    · obtain ⟨a', ha', hsame⟩ := h.of_some ha
      exact ⟨a', ha', hsame.isCategory⟩
    · obtain ⟨a, ha, hsame⟩ := h.some_of ha'
      exact ⟨a, ha, hsame.isCategory⟩
  have hcount := hcounts p e hget
  have hcount' := hcounts' p e' hget'
  have hcore := htwin.core
  exact
    { origin := congrArg (·.origin) hcore
      docId := congrArg (·.docId) hcore
      isCategory := htwin.isCategory
      columnValues := fun name => congrArg (·.columnValues.get? name) hcore
      decryptionKeyId := congrArg (·.decryptionKeyId) hcore
      indentLevels := congrArg (·.indentLevels) hcore
      childCount := by rw [hcount.childCount, hcount'.childCount, htally, htally]
      childCategoryCount := by rw [hcount.childCategoryCount, hcount'.childCategoryCount, htally]
      childDocumentCount := by rw [hcount.childDocumentCount, hcount'.childDocumentCount, htally]
      descendantCount := congrArg (·.descendantCount) hcore
      descendantDocumentCount := congrArg (·.descendantDocumentCount) hcore
      descendantCategoryCount := congrArg (·.descendantCategoryCount) hcore
      totalValues := fun name => congrArg (·.totalValues.get? name) hcore }

/-- The order of the siblings is all that the numbers say. -/
theorem Twins.siblingIndexes_eq (h : Twins env s s') (hs : Flushed env s) (htree : Tree env s)
    (hs' : Flushed env s') (htree' : Tree env s') {p : EntryPath} {e : VirtualViewEntryData}
    (hget : s.entries.get? p = some e) : s'.siblingIndexes p = s.siblingIndexes p := by
  refine siblingIndexes_congr fun q hq hsuffix => ?_
  obtain ⟨k, q, rfl⟩ := exists_cons_of_ne_nil hq
  obtain ⟨a, ha⟩ := htree.exists_of_suffix hget hsuffix
  obtain ⟨a', ha', -⟩ := h.of_some ha
  have hplace := (hasPlace_iff hs.cached htree ha).mp (hs.numbered q k a ha)
  have hplace' := (hasPlace_iff hs'.cached htree' ha').mp (hs'.numbered q k a' ha')
  rw [ha, ha', Option.map_some, Option.map_some, hplace, hplace', placeOf, placeOf,
    h.map_getChildEntries]

theorem getPosition_of_unread (h : Unread s) (k : EntryKey) (p : EntryPath) :
    s.getPosition (k :: p) = s.siblingIndexes (k :: p) := by
  refine getPosition_eq fun k p e position hget hposition => ?_
  rw [h k p e hget] at hposition
  exact nomatch hposition

/-- **Twins show the same.** -/
theorem Twins.sameView (h : Twins env s s') (hs : Maintained env s) (hs' : Maintained env s') :
    SameView env s s' where
  paths := h.has_eq
  entries _ _ _ hget hget' := h.sameShown hs.settled.counts hs'.settled.counts hget hget'
  siblings := h.map_getChildEntries
  positions k p hhas := by
    obtain ⟨e, he⟩ := LinkedMap.has_iff.mp hhas
    rw [getPosition_of_unread hs.unread, getPosition_of_unread hs'.unread]
    exact h.siblingIndexes_eq hs.flushed hs.settled.tree hs'.flushed hs'.settled.tree he

end Shown

end MindooDB
