import MindooDB.View.Twins

/-!
# View/TwinBatches — the batches of twins

Every phase of a batch makes twins of twins.  What it hangs up goes below the same paths in both;
what it takes out of one it takes out of the other, whatever the order of the lists; which
categories are dropped then, the documents that are left decide; and the flush numbers the siblings
in their order (`Twins.applyChanges`).
-/

namespace MindooDB

open LinkedMap ViewIndex VirtualView

variable {view : VirtualView} {s s' t t' : ViewIndex} {doc : DocEntry}
  {change : VirtualViewDataChange}

theorem Orderly.relist (h : Orderly view.env s) (hentries : t.entries = s.entries) :
    Orderly view.env t where
  tree := VirtualView.Tree.of_entries_eq h.tree hentries
  cached p e sorted hget hcache := by
    rw [hentries] at hget
    rw [childKeys, hentries]
    exact h.cached p e sorted hget hcache
  sorted p e hget := by
    rw [hentries] at hget
    rw [getChildEntries_of_entries_eq hentries]
    exact h.sorted p e hget

/-- Twins, both in order. -/
structure TwinTrees (env : Runtime) (s s' : ViewIndex) : Prop where
  twins : Twins env s s'
  orderly : Orderly env s
  orderly' : Orderly env s'

theorem TwinTrees.relist (h : TwinTrees view.env s s') (hentries : t.entries = s.entries)
    (hentries' : t'.entries = s'.entries) (hcounter : t'.categoryIdCounter = t.categoryIdCounter) :
    TwinTrees view.env t t' :=
  ⟨h.twins.relist hentries hentries' hcounter, h.orderly.relist hentries,
    h.orderly'.relist hentries'⟩

/-! ## Additions -/

variable {parent : EntryPath} {up : VirtualViewEntryData → VirtualViewEntryData}

section

variable (h : TwinTrees view.env s s')

include h

section

variable (hcollates : view.env.Collates)

include hcollates

theorem TwinTrees.hang {child : VirtualViewEntryData} (hup : LeavesPlaces up)
    (hcore : ∀ e, (up e).core = up e.core) (hparent : s.HasCategory parent)
    (hfresh : s.entries.get? (child.sortKey.toKey view.env :: parent) = none)
    (hcache : child.sortedChildrenCache = none) (hposition : child.position = none) :
    TwinTrees view.env (s.hang view.env child up parent) (s'.hang view.env child up parent) :=
  ⟨h.twins.hang hcollates h.orderly h.orderly' hup hcore hparent hfresh hcache hposition,
    h.orderly.hang hcollates hup hparent hfresh hcache hposition,
    h.orderly'.hang hcollates hup (h.twins.hasCategory_iff.mpr hparent)
      (h.twins.get?_eq_none_iff.mpr hfresh) hcache hposition⟩

/-- **A step of a script** makes twins of twins. -/
theorem TwinTrees.place {step : Placement} (hparent : s.HasCategory step.parent) :
    TwinTrees view.env (view.place doc s step) (view.place doc s' step) := by
  cases step with
  | document parent =>
    rw [place_document, place_document, h.twins.has_eq]
    split
    · exact h
    · rename_i hfresh
      rw [Bool.not_eq_true, has_eq_false_iff] at hfresh
      exact h.hang hcollates (LeavesPlaces.docUp view _) (core_docUp view _) hparent hfresh rfl rfl
  | category itemName value descending indentLevel parent =>
    rw [place_category, place_category, h.twins.has_eq, h.twins.counter]
    split
    · exact h
    · rename_i hfresh
      rw [Bool.not_eq_true, has_eq_false_iff] at hfresh
      let category := view.categoryEntryData itemName value descending indentLevel
        (s.categoryIdCounter + 4)
      have hhung : TwinTrees view.env
          (s.hang view.env category (·.incrementDescendantCount true) parent)
          (s'.hang view.env category (·.incrementDescendantCount true) parent) :=
        h.hang hcollates (LeavesPlaces.incrementDescendantCount true) (fun _ => rfl) hparent hfresh
          rfl rfl
      exact hhung.relist rfl rfl rfl

theorem TwinTrees.addOne (doc : DocEntry) :
    TwinTrees view.env (view.addOne s doc) (view.addOne s' doc) := by
  have hkept : KeptByPlacing view doc s fun done =>
      TwinTrees view.env (view.afterSteps doc s done) (view.afterSteps doc s' done) := by
    intro done step _ hparent htwins
    rw [afterSteps, afterSteps, List.foldl_append, List.foldl_append]
    exact htwins.place hcollates hparent
  have hscript := script_induction hkept h.orderly.tree h
  exact hscript.relist rfl rfl hscript.twins.counter

theorem TwinTrees.foldl_addOne (docs : List DocEntry) :
    TwinTrees view.env (docs.foldl view.addOne s) (docs.foldl view.addOne s') := by
  induction docs generalizing s s' with
  | nil => exact h
  | cons doc docs ih => exact ih (h.addOne hcollates doc)

end

end

/-! ## Thinning out -/

theorem Orderly.unhang (h : Orderly view.env s) (hcollates : view.env.Collates)
    {child : VirtualViewEntryData} {key : EntryKey} (hup : LeavesPlaces up)
    (hget : s.entries.get? (key :: parent) = some child)
    (hleaf : ∀ k, s.entries.get? (k :: key :: parent) = none) :
    Orderly view.env (s.unhang view.env child up key parent) :=
  ⟨h.tree.unhang hup.entry hleaf, h.cached.unhang h.tree hup hget,
    h.sorted.unhang hcollates hup⟩

/-- Taking documents out thins the tree, when all that are there have the same values. -/
theorem thinned_unhangsMany {occurrences : List Occurrence} {values : ColumnValues}
    (hcollates : view.env.Collates) (hlisted : Listed occurrences) (ho : Orderly view.env s)
    (hvalues : ∀ o ∈ occurrences, o.isCategory = false → o.origin ≠ ORIGIN_VIRTUALVIEW →
      s.entries.has o.path = true → o.columnValues = values)
    (h : Relation.ReflTransGen (view.Unhangs occurrences) s t) :
    Thinned view values s t ∧ Orderly view.env t := by
  induction h with
  | refl => exact ⟨Thinned.refl ho, ho⟩
  | tail _ hstep ih =>
    obtain ⟨hthinned, ho₁⟩ := ih
    obtain ⟨ho, hdoc, horigin, hpath, hget⟩ := hstep
    obtain ⟨key', parent', hpath', hkey⟩ := hlisted _ ho hdoc
    obtain ⟨rfl, rfl⟩ := List.cons.inj (hpath.symm.trans hpath')
    have hleaf := ho₁.tree.leaf_of_document hget ((ho₁.tree.isCategory_eq hget).trans hkey)
    have hhas := hthinned.has_of_has (has_iff.mpr ⟨_, hget⟩)
    rw [hvalues _ ho hdoc horigin (hpath ▸ hhas)]
    have hup := LeavesPlaces.docDown view values
    exact ⟨hthinned.trans (thinned_unhang hcollates ho₁ hup ⟨1, core_docDown view values⟩ hget
      hleaf), ho₁.unhang hcollates hup hget hleaf⟩

/-- Dropping categories thins the tree. -/
theorem thinned_dropsMany (values : ColumnValues) (hcollates : view.env.Collates)
    (ho : Orderly view.env s) (hcounts : HasCounts s)
    (h : Relation.ReflTransGen view.Drops s t) :
    Thinned view values s t ∧ Orderly view.env t := by
  induction h with
  | refl => exact ⟨Thinned.refl ho, ho⟩
  | tail hmany hstep ih =>
    obtain ⟨hthinned, ho₁⟩ := ih
    obtain ⟨-, hcounts₁, -⟩ := dropsMany_spec hmany ho.tree hcounts
    obtain ⟨hget, -, hempty⟩ := hstep
    have hleaf := leaf_of_childCount_eq_zero hcounts₁ hget hempty
    have hthin : Thinned view values _ _ :=
      thinned_unhang hcollates ho₁ LeavesPlaces.unchanged ⟨0, fun _ => rfl⟩ hget hleaf
    exact ⟨(hthinned.trans hthin).relist rfl rfl,
      (ho₁.unhang hcollates LeavesPlaces.unchanged hget hleaf).relist rfl⟩

/-! ## Removals -/

/-- **A view from which documents can be taken out**: what `Settled` says of it in the middle of a
batch, with its documents listed. -/
structure Removable (env : Runtime) (s : ViewIndex) : Prop where
  orderly : Orderly env s
  counts : HasCounts s
  lists : HasLists s
  indexed : Indexed s

/-- What is listed under a key. -/
abbrev ViewIndex.listedUnder (s : ViewIndex) (key : JSString) : List Occurrence :=
  (s.entriesByDocId.get? key).getD []

section Removals

variable {key : JSString} {p : EntryPath} {e : VirtualViewEntryData}

theorem Removable.listed (h : Removable view.env s) (key : JSString) :
    Listed (s.listedUnder key) := by
  intro o ho hdoc
  cases hget : s.entriesByDocId.get? key with
  | none => exact absurd ho (by simp [listedUnder, hget])
  | some occurrences =>
    rw [listedUnder, hget, Option.getD_some] at ho
    obtain ⟨⟨entryKey, parent, hpath, hkey, -⟩, -⟩ := h.lists key occurrences hget o ho hdoc
    exact ⟨entryKey, parent, hpath, hkey⟩

/-- **What a removal takes out**: the documents of the key. -/
theorem Removable.mem_takenPaths_iff (h : Removable view.env s) (hget : s.entries.get? p = some e) :
    p ∈ takenPaths (s.listedUnder key)
      ↔ ∃ entryKey parent, p = entryKey :: parent ∧ e.isCategory = false
        ∧ entryKey.scopedDocId = key := by
  rw [mem_takenPaths]
  constructor
  · rintro ⟨o, ho, hdoc, -, rfl⟩
    cases hlist : s.entriesByDocId.get? key with
    | none => exact absurd ho (by simp [listedUnder, hlist])
    | some occurrences =>
      rw [listedUnder, hlist, Option.getD_some] at ho
      obtain ⟨⟨entryKey, parent, hpath, hkey, hscoped⟩, -⟩ := h.lists key occurrences hlist o ho hdoc
      rw [hpath] at hget
      exact ⟨entryKey, parent, hpath, (h.orderly.tree.isCategory_eq hget).trans hkey, hscoped⟩
  · rintro ⟨entryKey, parent, rfl, hdoc, rfl⟩
    obtain ⟨occurrences, hlist, o, ho, hodoc, horigin, hpath, -⟩ :=
      h.indexed.find entryKey parent e hget hdoc
    rw [listedUnder, hlist]
    exact ⟨o, ho, hodoc, horigin, hpath⟩

/-- The documents of a key have one set of values. -/
theorem VirtualView.Indexed.exists_columnValues (h : Indexed s) (key : JSString) : ∃ values,
    ∀ entryKey p e, s.entries.get? (entryKey :: p) = some e → e.isCategory = false →
      entryKey.scopedDocId = key → e.columnValues = values := by
  by_cases hsome : ∃ entryKey p e, s.entries.get? (entryKey :: p) = some e
      ∧ e.isCategory = false ∧ entryKey.scopedDocId = key
  · obtain ⟨entryKey, p, e, hget, hdoc, rfl⟩ := hsome
    refine ⟨e.columnValues, fun entryKey' p' e' hget' hdoc' hkey => ?_⟩
    obtain ⟨occurrences, hlist, o, ho, hodoc, -, -, hvalues⟩ := h.find entryKey p e hget hdoc
    obtain ⟨occurrences', hlist', o', ho', hodoc', -, -, hvalues'⟩ :=
      h.find entryKey' p' e' hget' hdoc'
    rw [hkey] at hlist'
    obtain rfl := Option.some.inj (hlist.symm.trans hlist')
    rw [← hvalues, ← hvalues']
    exact h.values _ _ (h.plain entryKey p e hget hdoc) hlist o' ho' o ho hodoc' hodoc
  · exact ⟨∅, fun entryKey p e hget hdoc hkey =>
      absurd ⟨entryKey, p, e, hget, hdoc, hkey⟩ hsome⟩

/-- Those that are listed and are in the tree have these values too. -/
theorem Removable.columnValues_of_listed (h : Removable view.env s) {values : ColumnValues}
    (hvalues : ∀ entryKey p e, s.entries.get? (entryKey :: p) = some e → e.isCategory = false →
      entryKey.scopedDocId = key → e.columnValues = values) {o : Occurrence}
    (ho : o ∈ s.listedUnder key) (hdoc : o.isCategory = false)
    (horigin : o.origin ≠ ORIGIN_VIRTUALVIEW) (hhas : s.entries.has o.path = true) :
    o.columnValues = values := by
  obtain ⟨e, he⟩ := has_iff.mp hhas
  obtain ⟨entryKey, p, hpath, hedoc, rfl⟩ := (h.mem_takenPaths_iff he).mp
    (mem_takenPaths.mpr ⟨o, ho, hdoc, horigin, rfl⟩)
  rw [hpath] at he
  obtain ⟨occurrences, hlist, o', ho', hodoc', -, -, heq⟩ := h.indexed.find entryKey p e he hedoc
  rw [listedUnder, hlist, Option.getD_some] at ho
  rw [h.indexed.values _ _ (h.indexed.plain entryKey p e he hedoc) hlist o ho o' ho' hdoc hodoc',
    heq, hvalues entryKey p e he hedoc rfl]

variable {origin docId : JSString} {toCheck toCheck' : List EntryPath}

variable (view) in
theorem removeDoc_eq (origin docId : JSString) (s : ViewIndex) (toCheck : List EntryPath) :
    view.removeDoc origin (s, toCheck) docId
      = (let r := (s.listedUnder (scopedDocIdKey origin docId)).foldl view.removeOccurrence
            (s, toCheck)
         ({ r.1 with entriesByDocId := s.entriesByDocId.delete (scopedDocIdKey origin docId) },
          r.2)) :=
  removeDoc_relist origin docId s s.entriesByDocId toCheck

section

variable (h : Removable view.env s)

include h

theorem Removable.removed (key : JSString) (toCheck : List EntryPath) :
    view.Removed (s.listedUnder key) (s.listedUnder key) s toCheck
      ((s.listedUnder key).foldl view.removeOccurrence (s, toCheck)) :=
  foldl_removeOccurrence_spec (h.listed key) (List.Subset.refl _) toCheck h.orderly.tree

/-- **What is there after a removal**: all but the documents of the key. -/
theorem Removable.has_removeDoc_iff :
    (view.removeDoc origin (s, toCheck) docId).1.entries.has p = true
      ↔ ∃ e, s.entries.get? p = some e ∧ ¬∃ entryKey parent, p = entryKey :: parent
        ∧ e.isCategory = false ∧ entryKey.scopedDocId = scopedDocIdKey origin docId := by
  have hremoved := h.removed (scopedDocIdKey origin docId) toCheck
  rw [removeDoc_eq, has_iff]
  constructor
  · rintro ⟨e', he'⟩
    obtain ⟨hnot, e, he, -⟩ := hremoved.some_of he'
    exact ⟨e, he, fun hdoc => hnot ((h.mem_takenPaths_iff he).mpr hdoc)⟩
  · rintro ⟨e, he, hnot⟩
    obtain ⟨e', he', -⟩ := hremoved.of_some he fun hmem => hnot ((h.mem_takenPaths_iff he).mp hmem)
    exact ⟨e', he'⟩

/-- A document that is left is as it was, and another key's. -/
theorem Removable.document_of_removeDoc {entryKey : EntryKey}
    (hget : (view.removeDoc origin (s, toCheck) docId).1.entries.get?
      (entryKey :: parent) = some e) (hdoc : e.isCategory = false) :
    s.entries.get? (entryKey :: parent) = some e
      ∧ entryKey.scopedDocId ≠ scopedDocIdKey origin docId := by
  have hremoved := h.removed (scopedDocIdKey origin docId) toCheck
  rw [removeDoc_eq] at hget
  obtain ⟨hnot, e₀, he₀, hsame⟩ := hremoved.some_of hget
  have hdoc₀ := hsame.isCategory.symm.trans hdoc
  have hkept := unhangsMany_document_of_some (h.listed _) hremoved.steps h.orderly.tree he₀ hdoc₀
    hnot
  obtain rfl := Option.some.inj (hget.symm.trans hkept)
  exact ⟨he₀, fun hkey => hnot ((h.mem_takenPaths_iff he₀).mpr ⟨_, _, rfl, hdoc, hkey⟩)⟩

theorem Removable.removeDoc (hcollates : view.env.Collates) :
    Removable view.env (view.removeDoc origin (s, toCheck) docId).1 := by
  have hremoved := h.removed (scopedDocIdKey origin docId) toCheck
  have hlist : ∀ {key occurrences},
      (view.removeDoc origin (s, toCheck) docId).1.entriesByDocId.get? key = some occurrences →
        s.entriesByDocId.get? key = some occurrences := by
    intro key occurrences hget
    rw [removeDoc_eq, get?_delete] at hget
    split at hget
    · exact nomatch hget
    · exact hget
  obtain ⟨values, hvalues⟩ := h.indexed.exists_columnValues (scopedDocIdKey origin docId)
  obtain ⟨-, horderly⟩ := thinned_unhangsMany hcollates (h.listed _) h.orderly
    (fun o ho => h.columnValues_of_listed hvalues ho) hremoved.steps
  obtain ⟨-, hcounts, -⟩ := unhangsMany_counts (h.listed _) hremoved.steps h.orderly.tree
  refine ⟨?_, ?_, fun key occurrences hget => h.lists key occurrences (hlist hget),
    fun key p e hget hcat => ?_, fun key p e hget hdoc => ?_, fun key p e hget hdoc => ?_,
    fun key occurrences hkey hget => h.indexed.values key occurrences hkey (hlist hget)⟩
  · rw [removeDoc_eq]
    exact horderly.relist rfl
  · rw [removeDoc_eq]
    exact (hcounts h.counts).of_entries_eq rfl
  · rw [removeDoc_eq] at hget
    obtain ⟨-, e₀, he₀, hsame⟩ := hremoved.some_of hget
    rw [hsame.origin, hsame.docId]
    exact h.indexed.ids key p e₀ he₀ (hsame.isCategory.symm.trans hcat)
  · exact h.indexed.plain key p e (h.document_of_removeDoc hget hdoc).1 hdoc
  · obtain ⟨hget₀, hkey⟩ := h.document_of_removeDoc hget hdoc
    obtain ⟨occurrences, hlisted, hfound⟩ := h.indexed.find key p e hget₀ hdoc
    refine ⟨occurrences, ?_, hfound⟩
    rw [removeDoc_eq]
    exact (get?_delete_of_ne _ hkey).trans hlisted

end

/-- **Taking a document out of twins** leaves twins. -/
theorem Twins.removeDoc (h : Twins view.env s s') (hcollates : view.env.Collates)
    (hs : Removable view.env s) (hs' : Removable view.env s') :
    Twins view.env (view.removeDoc origin (s, toCheck) docId).1
      (view.removeDoc origin (s', toCheck') docId).1 := by
  have hremoved := hs.removed (scopedDocIdKey origin docId) toCheck
  have hremoved' := hs'.removed (scopedDocIdKey origin docId) toCheck'
  obtain ⟨values, hvalues⟩ := hs.indexed.exists_columnValues (scopedDocIdKey origin docId)
  have hvalues' : ∀ entryKey p e', s'.entries.get? (entryKey :: p) = some e' →
      e'.isCategory = false → entryKey.scopedDocId = scopedDocIdKey origin docId →
        e'.columnValues = values := by
    intro entryKey p e' hget hdoc hkey
    obtain ⟨e, he, htwin⟩ := h.some_of hget
    rw [htwin.columnValues]
    exact hvalues entryKey p e he (htwin.isCategory.symm.trans hdoc) hkey
  obtain ⟨hthinned, -⟩ := thinned_unhangsMany hcollates (hs.listed _) hs.orderly
    (fun o ho => hs.columnValues_of_listed hvalues ho) hremoved.steps
  obtain ⟨hthinned', -⟩ := thinned_unhangsMany hcollates (hs'.listed _) hs'.orderly
    (fun o ho => hs'.columnValues_of_listed hvalues' ho) hremoved'.steps
  have ht : Thinned view values s (view.removeDoc origin (s, toCheck) docId).1 := by
    rw [removeDoc_eq]
    exact hthinned.relist rfl rfl
  have ht' : Thinned view values s' (view.removeDoc origin (s', toCheck') docId).1 := by
    rw [removeDoc_eq]
    exact hthinned'.relist rfl rfl
  refine h.thin ht ht' (hs.removeDoc hcollates).counts (hs'.removeDoc hcollates).counts fun p => ?_
  rw [Bool.eq_iff_iff, hs.has_removeDoc_iff, hs'.has_removeDoc_iff]
  constructor
  · rintro ⟨e', he', hnot⟩
    obtain ⟨e, he, htwin⟩ := h.some_of he'
    exact ⟨e, he, by rwa [← htwin.isCategory]⟩
  · rintro ⟨e, he, hnot⟩
    obtain ⟨e', he', htwin⟩ := h.of_some he
    exact ⟨e', he', by rwa [htwin.isCategory]⟩

theorem Twins.foldl_removeDoc (h : Twins view.env s s') (hcollates : view.env.Collates)
    (hs : Removable view.env s) (hs' : Removable view.env s') (origin : JSString)
    (docIds : List JSString) (check check' : List EntryPath) :
    Twins view.env (docIds.foldl (view.removeDoc origin) (s, check)).1
        (docIds.foldl (view.removeDoc origin) (s', check')).1
      ∧ Removable view.env (docIds.foldl (view.removeDoc origin) (s, check)).1
      ∧ Removable view.env (docIds.foldl (view.removeDoc origin) (s', check')).1 := by
  induction docIds generalizing s s' check check' with
  | nil => exact ⟨h, hs, hs'⟩
  | cons docId docIds ih =>
    exact ih (h.removeDoc hcollates hs hs') (hs.removeDoc hcollates) (hs'.removeDoc hcollates) _ _

end Removals

/-! ## The categories left empty -/

/-- There is a document at a path. -/
def HasDocument (s : ViewIndex) (p : EntryPath) : Prop :=
  ∃ e, s.entries.get? p = some e ∧ e.isCategory = false

theorem Twins.hasDocument_iff (h : Twins view.env s s') (p : EntryPath) :
    HasDocument s' p ↔ HasDocument s p := by
  constructor
  · rintro ⟨e', he', hdoc⟩
    obtain ⟨e, he, htwin⟩ := h.some_of he'
    exact ⟨e, he, htwin.isCategory.symm.trans hdoc⟩
  · rintro ⟨e, he, hdoc⟩
    obtain ⟨e', he', htwin⟩ := h.of_some he
    exact ⟨e', he', htwin.isCategory.trans hdoc⟩

theorem hasDocument_dropsMany (h : Relation.ReflTransGen view.Drops s t) (p : EntryPath) :
    HasDocument t p ↔ HasDocument s p := by
  constructor
  · rintro ⟨e', he', hdoc⟩
    obtain ⟨e, he, hsame⟩ := dropsMany_some_of h he'
    exact ⟨e, he, hsame.isCategory.symm.trans hdoc⟩
  · rintro ⟨e, he, hdoc⟩
    obtain ⟨e', he', hsame⟩ := dropsMany_of_some h he hdoc
    exact ⟨e', he', hsame.isCategory.trans hdoc⟩

/-- **The documents decide what is there.** -/
theorem has_eq_of_hasDocument (hs : Settled view.env s) (hs' : Settled view.env s')
    (h : ∀ p, HasDocument s' p ↔ HasDocument s p) (p : EntryPath) :
    s'.entries.has p = s.entries.has p := by
  have hcategory : s'.HasCategory p ↔ s.HasCategory p := by
    rw [VirtualView.hasCategory_iff hs, VirtualView.hasCategory_iff hs']
    refine or_congr Iff.rfl (exists_congr fun q => ?_)
    constructor
    · rintro ⟨e', he', hdoc, hbelow⟩
      obtain ⟨e, he, hdoc⟩ := (h q).mp ⟨e', he', hdoc⟩
      exact ⟨e, he, hdoc, hbelow⟩
    · rintro ⟨e, he, hdoc, hbelow⟩
      obtain ⟨e', he', hdoc⟩ := (h q).mpr ⟨e, he, hdoc⟩
      exact ⟨e', he', hdoc, hbelow⟩
  have hsplit : ∀ s : ViewIndex, s.entries.has p = true ↔ s.HasCategory p ∨ HasDocument s p := by
    intro s
    rw [has_iff]
    constructor
    · rintro ⟨e, he⟩
      cases hkind : e.isCategory with
      | true => exact .inl ⟨e, he, hkind⟩
      | false => exact .inr ⟨e, he, hkind⟩
    · rintro (⟨e, he, -⟩ | ⟨e, he, -⟩)
      · exact ⟨e, he⟩
      · exact ⟨e, he⟩
  rw [Bool.eq_iff_iff, hsplit, hsplit, hcategory, h p]

/-- **The phases before the flush** make twins of twins. -/
theorem TwinTrees.beforeFlush (h : Twins view.env s s') (hcollates : view.env.Collates)
    (hs : Settled view.env s) (hs' : Settled view.env s') (hr : Removable view.env s)
    (hr' : Removable view.env s') (change : VirtualViewDataChange) :
    TwinTrees view.env (view.beforeFlush change s) (view.beforeFlush change s') := by
  obtain ⟨hremoved, hrest, hrest'⟩ := h.foldl_removeDoc hcollates hr hr' change.origin
    (docIdsToRemove change).toList [] []
  have hadded : TwinTrees view.env
      (view.applyAdditions change (view.applyRemovals change s).1)
      (view.applyAdditions change (view.applyRemovals change s').1) := by
    rw [applyAdditions_eq, applyAdditions_eq]
    exact TwinTrees.foldl_addOne ⟨hremoved, hrest.orderly, hrest'.orderly⟩ hcollates _
  have hdrops := (dropped_beforeFlush change hs).steps
  have hdrops' := (dropped_beforeFlush change hs').steps
  have hsettled := settled_beforeFlush change hs
  have hsettled' := settled_beforeFlush change hs'
  obtain ⟨hthinned, horderly⟩ := thinned_dropsMany ∅ hcollates hadded.orderly
    ((added_applyAdditions change hs).counts (removedBy_applyRemovals change hs).counts) hdrops
  obtain ⟨hthinned', horderly'⟩ := thinned_dropsMany ∅ hcollates hadded.orderly'
    ((added_applyAdditions change hs').counts (removedBy_applyRemovals change hs').counts) hdrops'
  refine ⟨hadded.twins.thin hthinned hthinned' hsettled.counts hsettled'.counts
    (has_eq_of_hasDocument hsettled hsettled' fun p => ?_), horderly, horderly'⟩
  rw [hasDocument_dropsMany hdrops, hasDocument_dropsMany hdrops', hadded.twins.hasDocument_iff]

/-! ## The flush -/

theorem Renumbered.core {e e' : VirtualViewEntryData} (h : Renumbered e e') : e'.core = e.core := by
  obtain ⟨_, _, _, _, rfl⟩ := h
  rfl

theorem Renumbered.twins {env : Runtime} {e e' a a' : VirtualViewEntryData}
    (h : TwinEntries env e e') (ha : Renumbered e a) (ha' : Renumbered e' a') :
    TwinEntries env a a' := by
  refine ⟨by rw [ha.core, ha'.core, h.core], ?_⟩
  rw [ha.same.sortKey, ha'.same.sortKey]
  exact h.sortKey

theorem categoryIdCounter_renumbersMany (h : Relation.ReflTransGen Renumbers s t) :
    t.categoryIdCounter = s.categoryIdCounter := by
  induction h with
  | refl => rfl
  | tail _ hstep ih =>
    rw [← ih]
    cases hstep with
    | entry | pending => rfl

/-- **The flush** makes twins of twins. -/
theorem TwinTrees.flush (h : TwinTrees view.env s s') :
    Twins view.env (view.processPendingSiblingIndexUpdates s)
      (view.processPendingSiblingIndexUpdates s') := by
  have hmany := renumbers_processPendingSiblingIndexUpdates view s
  have hmany' := renumbers_processPendingSiblingIndexUpdates view s'
  have hflush := flushes_processPendingSiblingIndexUpdates view h.orderly.tree h.orderly.cached
  have hflush' := flushes_processPendingSiblingIndexUpdates view h.orderly'.tree h.orderly'.cached
  refine ⟨fun {p a} hget => ?_, fun {p a'} hget => ?_, fun p => ?_, ?_⟩
  · obtain ⟨e, he, ha⟩ := (renumbersMany_some hmany).1 hget
    obtain ⟨e', he', htwin⟩ := h.twins.of_some he
    obtain ⟨a', hget', ha'⟩ := (renumbersMany_some hmany').2 he'
    exact ⟨a', hget', Renumbered.twins htwin ha ha'⟩
  · obtain ⟨e', he', ha'⟩ := (renumbersMany_some hmany').1 hget
    obtain ⟨e, he, htwin⟩ := h.twins.some_of he'
    obtain ⟨a, hget', ha⟩ := (renumbersMany_some hmany).2 he
    exact ⟨a, hget', Renumbered.twins htwin ha ha'⟩
  · rw [hflush.children, hflush'.children]
    exact h.twins.order p
  · rw [categoryIdCounter_renumbersMany hmany, categoryIdCounter_renumbersMany hmany',
      h.twins.counter]

end MindooDB
