import MindooDB.View.Documents

/-!
# View/Indexed — every document is found by its key

`Lists` says how a run of batches has listed the documents.  A removal needs less: that every
document of the tree is listed under the key at the head of its path, and that what is listed under
one key has one set of values (`Indexed`).  Every batch keeps this, whoever has made the lists.
-/

namespace MindooDB

open List

namespace VirtualView

variable {view : VirtualView} {change : VirtualViewDataChange} {s s' : ViewIndex} {key : JSString}

/-! ## The lists after a batch -/

/-- The ids of the categories are generated ones. -/
def IdsGenerated (s : ViewIndex) : Prop :=
  ∀ key p e, s.entries.get? (key :: p) = some e → e.isCategory = true →
    IsCategoryKey (scopedDocIdKey e.origin e.docId)

theorem get?_lists_addOne (doc : DocEntry) (htree : Tree view.env s) (hkey : ¬IsCategoryKey key) :
    (view.addOne s doc).entriesByDocId.get? key
      = if key = scopedDocIdKey doc.origin doc.docId then
          some ((view.docPlaces doc).map (view.occurrenceAt doc))
        else s.entriesByDocId.get? key := by
  obtain ⟨hmany, -⟩ := foldl_script_spec doc htree htree.root
    (List.Subset.refl (view.docScript doc))
  rw [← hmany.get?_lists hkey]
  exact LinkedMap.get?_set _ _ _ _

/-- Adding documents leaves the lists under other keys. -/
theorem get?_lists_of_notMem {docs : List DocEntry} (htree : Tree view.env s)
    (hkey : ¬IsCategoryKey key)
    (hnone : ∀ doc ∈ docs, key ≠ scopedDocIdKey doc.origin doc.docId) :
    (docs.foldl view.addOne s).entriesByDocId.get? key = s.entriesByDocId.get? key := by
  induction docs generalizing s with
  | nil => rfl
  | cons doc docs ih =>
    rw [foldl_cons, ih (added_addOne htree doc).tree fun other hother =>
        hnone other (mem_cons_of_mem _ hother), get?_lists_addOne doc htree hkey,
      if_neg (hnone doc mem_cons_self)]

/-- Each of them is listed at its places. -/
theorem get?_lists_of_mem {docs : List DocEntry} {doc : DocEntry} (htree : Tree view.env s)
    (hdistinct : docs.Pairwise fun doc other => scopedDocIdKey doc.origin doc.docId
      ≠ scopedDocIdKey other.origin other.docId) (hdoc : doc ∈ docs)
    (hkey : ¬IsCategoryKey (scopedDocIdKey doc.origin doc.docId)) :
    (docs.foldl view.addOne s).entriesByDocId.get? (scopedDocIdKey doc.origin doc.docId)
      = some ((view.docPlaces doc).map (view.occurrenceAt doc)) := by
  induction docs generalizing s with
  | nil => exact nomatch hdoc
  | cons first docs ih =>
    obtain ⟨hother, hdistinct'⟩ := pairwise_cons.mp hdistinct
    have htree' := (added_addOne htree first).tree
    rw [foldl_cons]
    rcases mem_cons.mp hdoc with rfl | hdoc
    · rw [get?_lists_of_notMem htree' hkey hother, get?_lists_addOne doc htree hkey, if_pos rfl]
    · exact ih htree' hdistinct' hdoc

theorem IdsGenerated.of_some (h : IdsGenerated s)
    (hsome : ∀ {p e'}, s'.entries.get? p = some e' →
      ∃ e, s.entries.get? p = some e ∧ SameEntry e e') : IdsGenerated s' := by
  intro k p e' hget hcat
  obtain ⟨e, he, hsame⟩ := hsome hget
  rw [hsame.origin, hsame.docId]
  exact h k p e he (hsame.isCategory.symm.trans hcat)

theorem IdsGenerated.added {docs : List DocEntry} (h : IdsGenerated s)
    (hadded : view.Added docs s s') : IdsGenerated s' := by
  intro k p e' hget hcat
  rcases hadded.some_of hget with ⟨e, he, hsame⟩ | ⟨-, doc, -, step, -, counter, -, hsame⟩
  · rw [hsame.origin, hsame.docId]
    exact h k p e he (hsame.isCategory.symm.trans hcat)
  · rw [hsame.origin, hsame.docId]
    cases step with
    | document => exact nomatch hsame.isCategory.symm.trans hcat
    | category => exact ⟨counter, rfl⟩

theorem IdsGenerated.removed (h : IdsGenerated s) (hs : Settled view.env s) :
    IdsGenerated (view.applyRemovals change s).1 := by
  intro k p e' hget hcat
  rw [(removedBy_applyRemovals change hs).entries] at hget
  obtain ⟨-, e, he, hsame⟩ := (removed_takenOut change hs).some_of hget
  rw [hsame.origin, hsame.docId]
  exact h k p e he (hsame.isCategory.symm.trans hcat)

/-- Dropping categories leaves the lists of documents. -/
theorem get?_lists_dropsMany (h : Relation.ReflTransGen view.Drops s s') (hids : IdsGenerated s)
    (hkey : ¬IsCategoryKey key) :
    s'.entriesByDocId.get? key = s.entriesByDocId.get? key := by
  induction h with
  | refl => rfl
  | tail hmany hdrop ih =>
    have hids' := hids.of_some fun hget => dropsMany_some_of hmany hget
    obtain ⟨hget, hcat, -⟩ := hdrop
    rw [← ih]
    exact LinkedMap.get?_delete_of_ne _ fun heq => hkey (heq ▸ hids' _ _ _ hget hcat)

/-- **The lists of documents after a batch**: those of the documents it adds, and those under keys
that it does not touch. -/
theorem get?_lists_applyChanges (hs : Settled view.env s) (hids : IdsGenerated s)
    (hkey : ¬IsCategoryKey key) :
    (∀ doc ∈ view.acceptedDocs change, key = scopedDocIdKey doc.origin doc.docId →
      (view.applyChanges s change).entriesByDocId.get? key
        = some ((view.docPlaces doc).map (view.occurrenceAt doc))) ∧
    ((∀ doc ∈ view.acceptedDocs change, key ≠ scopedDocIdKey doc.origin doc.docId) →
      (view.applyChanges s change).entriesByDocId.get? key
        = if key ∈ (docIdsToRemove change).toList.map (scopedDocIdKey change.origin) then none
          else s.entriesByDocId.get? key) := by
  have hremoved := removedBy_applyRemovals change hs
  have hadded := added_applyAdditions change hs
  have hadditions : (view.applyChanges s change).entriesByDocId.get? key
      = ((view.acceptedDocs change).foldl view.addOne
          (view.applyRemovals change s).1).entriesByDocId.get? key := by
    have hflush := (renumbersMany_spec
      (renumbers_processPendingSiblingIndexUpdates view (view.beforeFlush change s))
      (settled_beforeFlush change hs).tree).2.1
    rw [applyChanges_eq, hflush, get?_lists_dropsMany (dropped_beforeFlush change hs).steps
      ((hids.removed hs).added hadded) hkey, applyAdditions_eq]
  refine ⟨fun doc hdoc heq => ?_, fun hnone => ?_⟩
  · subst heq
    rw [hadditions, get?_lists_of_mem hremoved.tree (pairwise_acceptedDocs change) hdoc hkey]
  · rw [hadditions, get?_lists_of_notMem hremoved.tree hkey hnone, applyRemovals_eq]
    exact get?_unlist _ _ _ _

/-! ## Indexed trees -/

/-- **Every document of the tree is listed under the key at the head of its path**, and what is
listed under the key of a document has one set of values. -/
structure Indexed (s : ViewIndex) : Prop where
  ids : IdsGenerated s
  plain : ∀ key p e, s.entries.get? (key :: p) = some e → e.isCategory = false →
    ¬IsCategoryKey key.scopedDocId
  find : ∀ key p e, s.entries.get? (key :: p) = some e → e.isCategory = false →
    ∃ occurrences, s.entriesByDocId.get? key.scopedDocId = some occurrences
      ∧ ∃ o ∈ occurrences, o.isCategory = false ∧ o.origin ≠ ORIGIN_VIRTUALVIEW
        ∧ o.path = key :: p ∧ o.columnValues = e.columnValues
  values : ∀ key occurrences, ¬IsCategoryKey key → s.entriesByDocId.get? key = some occurrences →
    ∀ o ∈ occurrences, ∀ o' ∈ occurrences, o.isCategory = false → o'.isCategory = false →
      o.columnValues = o'.columnValues

theorem columnValues_renumbered {e e' : VirtualViewEntryData} (h : Renumbered e e') :
    e'.columnValues = e.columnValues := by
  obtain ⟨_, _, _, _, rfl⟩ := h
  rfl

/-- The documents that a batch adds come with keys that it takes out first. -/
theorem mem_keysToRemove {doc : DocEntry} (h : doc ∈ view.acceptedDocs change) :
    scopedDocIdKey doc.origin doc.docId
      ∈ (docIdsToRemove change).toList.map (scopedDocIdKey change.origin) := by
  obtain ⟨addition, hadd, rfl⟩ := mem_map.mp h
  exact mem_map.mpr ⟨addition.1, LinkedSet.mem_addAll.mpr
    (Or.inl (mem_map_of_mem (mem_of_mem_filter hadd))), rfl⟩

/-- **Every batch keeps the documents findable.** -/
theorem Indexed.applyChanges (h : Indexed s) (hs : Settled view.env s)
    (hown : change.origin ≠ ORIGIN_VIRTUALVIEW) : Indexed (view.applyChanges s change) := by
  have hplain : ∀ doc ∈ view.acceptedDocs change,
      ¬IsCategoryKey (scopedDocIdKey doc.origin doc.docId) := by
    intro doc hdoc hkey
    have horigin := origin_of_isCategoryKey hkey
    obtain ⟨_, -, rfl⟩ := mem_map.mp hdoc
    exact hown horigin
  refine ⟨fun key p e' hget hcat => ?_, fun key p e' hget hdoc => ?_, fun key p e' hget hdoc => ?_,
    fun key occurrences hkey hget o ho o' ho' hodoc hodoc' => ?_⟩
  · rcases some_of_applyChanges hs hget with ⟨e, he, hsame⟩ | ⟨doc, -, step, -, counter, -, hsame⟩
    · rw [hsame.origin, hsame.docId]
      exact h.ids key p e he (hsame.isCategory.symm.trans hcat)
    · rw [hsame.origin, hsame.docId]
      cases step with
      | document => cases hsame.isCategory.symm.trans hcat
      | category => exact ⟨counter, rfl⟩
  · rcases kept_or_placed hs hget hdoc with ⟨-, e, he, hr⟩ | ⟨doc, hmem, place, -, hpath, -⟩
    · exact h.plain key p e he (hr.same.isCategory.symm.trans hdoc)
    · rw [(List.cons.inj hpath).1]
      exact hplain doc hmem
  · rcases kept_or_placed hs hget hdoc with ⟨hkept, e, he, hr⟩ | ⟨doc, hmem, place, hplace, hpath, hr⟩
    · have hdoc₀ := hr.same.isCategory.symm.trans hdoc
      obtain ⟨occurrences, hlist, o, ho, hodoc, horigin, hopath, hvalues⟩ := h.find key p e he hdoc₀
      -- a batch that touched the key would have taken the document out
      have hnot : key.scopedDocId
          ∉ (docIdsToRemove change).toList.map (scopedDocIdKey change.origin) := by
        intro hmem
        obtain ⟨docId, hdocId, hkey⟩ := mem_map.mp hmem
        refine hkept (mem_takenPaths.mpr ⟨o, mem_flatMap.mpr ⟨docId, hdocId, ?_⟩, hodoc,
          horigin, hopath⟩)
        rw [hkey, hlist]
        exact ho
      refine ⟨occurrences, ?_, o, ho, hodoc, horigin, hopath,
        hvalues.trans (columnValues_renumbered hr).symm⟩
      rw [(get?_lists_applyChanges hs h.ids (h.plain key p e he hdoc₀)).2, if_neg hnot, hlist]
      intro doc hmem heq
      exact hnot (heq ▸ mem_keysToRemove hmem)
    · obtain ⟨rfl, rfl⟩ := List.cons.inj hpath
      refine ⟨_, (get?_lists_applyChanges hs h.ids (hplain doc hmem)).1 doc hmem rfl,
        view.occurrenceAt doc p, mem_map_of_mem hplace, rfl, ?_, rfl,
        (columnValues_renumbered hr).symm⟩
      rw [show (view.occurrenceAt doc p).origin = doc.origin from rfl]
      obtain ⟨_, -, rfl⟩ := mem_map.mp hmem
      exact hown
  · have hlists : _ ∧ ((∀ doc ∈ view.acceptedDocs change, key ≠ _) → _) :=
      get?_lists_applyChanges hs h.ids hkey
    by_cases hmem : ∃ doc ∈ view.acceptedDocs change, key = scopedDocIdKey doc.origin doc.docId
    · obtain ⟨doc, hmem, heq⟩ := hmem
      obtain rfl := Option.some.inj (hget.symm.trans (hlists.1 doc hmem heq))
      obtain ⟨_, -, rfl⟩ := mem_map.mp ho
      obtain ⟨_, -, rfl⟩ := mem_map.mp ho'
      rfl
    · push Not at hmem
      rw [hlists.2 hmem] at hget
      split at hget
      · cases hget
      · exact h.values key occurrences hkey hget o ho o' ho' hodoc hodoc'

/-- **After every run** the documents are found, when no batch comes from the view's own origin. -/
theorem indexed_run {changes : List VirtualViewDataChange}
    (hown : ∀ change ∈ changes, change.origin ≠ ORIGIN_VIRTUALVIEW) :
    Indexed (view.run changes) := by
  induction changes using List.reverseRecOn with
  | nil =>
    have hnone : ∀ key p, (view.run []).entries.get? (key :: p) = none := fun key p => by
      rw [run, foldl_nil, get?_initial, if_neg (by simp)]
    refine ⟨fun key p e hget => ?_, fun key p e hget => ?_, fun key p e hget => ?_,
      fun key occurrences _ hget => absurd hget (by simp [run, initial])⟩
    · cases (hnone key p).symm.trans hget
    · cases (hnone key p).symm.trans hget
    · cases (hnone key p).symm.trans hget
  | append_singleton changes change ih =>
    rw [run_concat]
    exact (ih fun change h => hown change (mem_append_left _ h)).applyChanges
      (settled_run changes) (hown change (mem_append_right _ (mem_singleton_self _)))

end VirtualView

end MindooDB
