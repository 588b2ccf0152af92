import MindooDB.View.Arrivals

/-!
# View/Contents — what a view shows

`ShowsDocs`: the documents of a view are those that were last provided, at all their places.  Every
batch keeps it (`ShowsDocs.applyChanges`), so two views that were provided with the same documents
have them at the same paths, whatever they were provided with before (`ShowsDocs.documentsAt`).
`Shows` is the same of a view whose documents are all of one origin.
-/

namespace MindooDB

open List VirtualViewDataChange

/-- The documents provided after a batch. -/
def VirtualViewDataChange.provide (change : VirtualViewDataChange)
    (provided : JSString → Option EntryData) (docId : JSString) : Option EntryData :=
  match change.additions.get? docId with
  | some data => some data
  | none => if docId ∈ change.removals then none else provided docId

/-- A document with the data provided for it. -/
def EntryData.toDoc (data : EntryData) (origin docId : JSString) : VirtualView.DocEntry where
  origin := origin
  docId := docId
  columnValues := data.values
  decryptionKeyId := data.decryptionKeyId

namespace VirtualView

variable (view : VirtualView)

/-- Where a document stands below a place. -/
def pathAt (doc : DocEntry) (place : EntryPath) : EntryPath :=
  (view.docSortKey doc).toKey view.env :: place

/-- **What a view shows** is the documents that it was provided with. -/
structure ShowsDocs (provided : Set DocEntry) (s : ViewIndex) : Prop where
  settled : Settled view.env s
  lists : view.Lists s
  noneOwn : NoneOwn s
  shown : ∀ p e, s.entries.get? p = some e → e.isCategory = false → ∃ doc ∈ provided,
    view.isAccepted doc.origin doc.docId doc.columnValues = true
      ∧ Renumbered (view.docEntryData doc) e ∧ ∃ place ∈ view.docPlaces doc, p = view.pathAt doc place
  placed : ∀ doc ∈ provided, view.isAccepted doc.origin doc.docId doc.columnValues = true →
    ∀ place ∈ view.docPlaces doc, ∃ e, s.entries.get? (view.pathAt doc place) = some e
      ∧ Renumbered (view.docEntryData doc) e

/-- The documents provided after a batch: those that it adds, and of the others those that share
their key with no document that it names. -/
def providedAfter (change : VirtualViewDataChange) (provided : Set DocEntry) : Set DocEntry :=
  {doc | doc.origin = change.origin
      ∧ change.additions.get? doc.docId = some ⟨doc.columnValues, doc.decryptionKeyId⟩
    ∨ doc ∈ provided ∧ ∀ docId ∈ docIdsToRemove change,
        scopedDocIdKey doc.origin doc.docId ≠ scopedDocIdKey change.origin docId}

/-- **What a view of one origin shows** is what was provided for it. -/
structure Shows (origin : JSString) (provided : JSString → Option EntryData) (s : ViewIndex) :
    Prop where
  settled : Settled view.env s
  lists : view.Lists s
  noneOwn : NoneOwn s
  shown : ∀ p e, s.entries.get? p = some e → e.isCategory = false → ∃ docId data,
    provided docId = some data ∧ view.isAccepted origin docId data.values = true
      ∧ Renumbered (view.docEntryData (data.toDoc origin docId)) e
      ∧ ∃ place ∈ view.docPlaces (data.toDoc origin docId),
        p = view.pathAt (data.toDoc origin docId) place
  placed : ∀ docId data, provided docId = some data →
    view.isAccepted origin docId data.values = true →
      ∀ place ∈ view.docPlaces (data.toDoc origin docId), ∃ e,
        s.entries.get? (view.pathAt (data.toDoc origin docId) place) = some e
          ∧ Renumbered (view.docEntryData (data.toDoc origin docId)) e

variable {view} {s s' : ViewIndex} {p : EntryPath} {e : VirtualViewEntryData} {doc : DocEntry}
  {change : VirtualViewDataChange} {docs docs' : Set DocEntry}
  {provided : JSString → Option EntryData}

/-! ## The documents of a view -/

theorem isCategory_of_initial (hget : view.initial.entries.get? p = some e) :
    e.isCategory = true := by
  rw [get?_initial] at hget
  split at hget
  · obtain rfl := Option.some.inj hget
    rfl
  · exact nomatch hget

theorem showsDocs_initial : view.ShowsDocs ∅ view.initial where
  settled := settled_initial
  lists := lists_initial
  noneOwn _ _ hget hdoc := nomatch (isCategory_of_initial hget).symm.trans hdoc
  shown _ _ hget hdoc := nomatch (isCategory_of_initial hget).symm.trans hdoc
  placed doc hdoc := absurd hdoc (Set.notMem_empty doc)

theorem mem_docIdsToRemove {docId : JSString} : docId ∈ docIdsToRemove change ↔
    docId ∈ change.removals ∨ (change.additions.get? docId).isSome := by
  rw [docIdsToRemove, LinkedSet.mem_addAll, LinkedMap.mem_keys_iff, Option.isSome_iff_exists]
  exact or_comm

theorem mem_acceptedDocs_iff : doc ∈ view.acceptedDocs change ↔
    (doc.origin = change.origin
      ∧ change.additions.get? doc.docId = some ⟨doc.columnValues, doc.decryptionKeyId⟩)
      ∧ view.isAccepted doc.origin doc.docId doc.columnValues = true := by
  constructor
  · intro h
    obtain ⟨⟨docId, data⟩, hadd, rfl⟩ := mem_map.mp h
    obtain ⟨hadd, haccepted⟩ := mem_filter.mp hadd
    exact ⟨⟨rfl, LinkedMap.mem_toList_iff.mp hadd⟩, haccepted⟩
  · rintro ⟨⟨horigin, hget⟩, haccepted⟩
    refine mem_map.mpr ⟨(doc.docId, ⟨doc.columnValues, doc.decryptionKeyId⟩),
      mem_filter.mpr ⟨LinkedMap.mem_toList_iff.mpr hget, ?_⟩, ?_⟩
    · rw [horigin] at haccepted
      exact haccepted
    · rw [← horigin]

/-- **A batch takes out just the documents whose keys it names.** -/
theorem ShowsDocs.mem_takenPaths_iff (h : view.ShowsDocs docs s) {place : EntryPath}
    (hget : s.entries.get? (view.pathAt doc place) = some e)
    (hmade : Renumbered (view.docEntryData doc) e) :
    view.pathAt doc place ∈ takenPaths (occurrencesToRemove change s)
      ↔ ∃ docId ∈ docIdsToRemove change,
        scopedDocIdKey doc.origin doc.docId = scopedDocIdKey change.origin docId := by
  have hdoc : e.isCategory = false := h.settled.tree.isCategory_eq hget
  obtain ⟨horigin, hdocId⟩ := IsListed.origin hmade
  rw [mem_takenPaths]
  constructor
  · rintro ⟨o, ho, hodoc, -, hpath⟩
    obtain ⟨docId, hmem, hlist⟩ := mem_flatMap.mp ho
    cases hlisted : s.entriesByDocId.get? (scopedDocIdKey change.origin docId) with
    | none => exact absurd hlist (by simp [hlisted])
    | some occurrences =>
      rw [hlisted, Option.getD_some] at hlist
      obtain ⟨⟨entryKey, parent, hpath', -, hscoped⟩, -⟩ := h.settled.lists _ _ hlisted o hlist hodoc
      obtain ⟨rfl, -⟩ := List.cons.inj (hpath.symm.trans hpath')
      exact ⟨docId, hmem, hscoped⟩
  · rintro ⟨docId, hmem, hkey⟩
    have hown := h.noneOwn _ e hget hdoc
    obtain ⟨doc', place', hplace', hpath', hmade', hlist⟩ := h.lists.find _ e hget hdoc hown
    obtain ⟨horigin', hdocId'⟩ := IsListed.origin hmade'
    refine ⟨view.occurrenceAt doc' place', mem_flatMap.mpr ⟨docId, hmem, ?_⟩, rfl, ?_,
      hpath'.symm⟩
    · rw [← hkey, horigin, hdocId, ← horigin', ← hdocId', hlist, Option.getD_some]
      exact mem_map_of_mem hplace'
    · exact fun heq => hown (horigin'.symm.trans heq)

/-- **Every batch is shown.** -/
theorem ShowsDocs.applyChanges (h : view.ShowsDocs docs s)
    (hown : change.origin ≠ ORIGIN_VIRTUALVIEW) :
    view.ShowsDocs (providedAfter change docs) (view.applyChanges s change) := by
  have hnoneOwn : NoneOwn (view.applyChanges s change) := by
    intro p e hget hdoc
    rcases kept_or_placed h.settled hget hdoc with ⟨-, e₀, he₀, hr⟩ | ⟨doc, hmem, -, -, -, hr⟩
    · rw [hr.same.origin]
      exact h.noneOwn p e₀ he₀ (hr.same.isCategory.symm.trans hdoc)
    · rw [← (IsListed.origin hr).1, origin_of_mem_acceptedDocs hmem]
      exact hown
  refine ⟨settled_applyChanges change h.settled, Lists.applyChanges h.settled h.lists, hnoneOwn,
    fun p e' hget hdoc => ?_, fun doc hprovided haccepted place hplace => ?_⟩
  · rcases kept_or_placed h.settled hget hdoc with ⟨hkept, e, he, hr⟩ |
      ⟨doc, hmem, place, hplace, rfl, hr⟩
    · obtain ⟨doc, hprovided, haccepted, hmade, place, hplace, rfl⟩ :=
        h.shown p e he (hr.same.isCategory.symm.trans hdoc)
      rw [h.mem_takenPaths_iff he hmade] at hkept
      exact ⟨doc, .inr ⟨hprovided, fun docId hmem heq => hkept ⟨docId, hmem, heq⟩⟩, haccepted,
        hmade.trans hr, place, hplace, rfl⟩
    · obtain ⟨hadded, haccepted⟩ := mem_acceptedDocs_iff.mp hmem
      exact ⟨doc, .inl hadded, haccepted, hr, place, hplace, rfl⟩
  · rcases hprovided with hadded | ⟨hbefore, hkept⟩
    · have hmem := mem_acceptedDocs_iff.mpr ⟨hadded, haccepted⟩
      obtain ⟨e, he⟩ := placed_applyChanges h.settled hmem hplace
      exact ⟨e, he, renumbered_of_placed h.settled h.lists h.noneOwn hmem he⟩
    · obtain ⟨e, he, hmade⟩ := h.placed doc hbefore haccepted place hplace
      have hstays : view.pathAt doc place ∉ takenPaths (occurrencesToRemove change s) := by
        rw [h.mem_takenPaths_iff he hmade]
        rintro ⟨docId, hmem, heq⟩
        exact hkept docId hmem heq
      obtain ⟨e', he', hr⟩ := renumbered_of_kept h.settled he (h.settled.tree.isCategory_eq he)
        hstays
      exact ⟨e', he', hmade.trans hr⟩

/-- **Views that show the same documents have them at the same paths**: it is enough that the
accepted ones are the same. -/
theorem ShowsDocs.documentsAt (h : view.ShowsDocs docs s) (h' : view.ShowsDocs docs' s')
    (hsub : ∀ doc ∈ docs, view.isAccepted doc.origin doc.docId doc.columnValues = true →
      doc ∈ docs') : DocumentsAt s s' := by
  intro p e hget hdoc
  obtain ⟨doc, hprovided, haccepted, hmade, place, hplace, rfl⟩ := h.shown p e hget hdoc
  obtain ⟨e', he', hmade'⟩ := h'.placed doc (hsub doc hprovided haccepted) haccepted place hplace
  refine ⟨e', he', h'.settled.tree.isCategory_eq he', ?_⟩
  obtain ⟨_, _, _, _, rfl⟩ := hmade
  obtain ⟨_, _, _, _, rfl⟩ := hmade'
  exact ⟨rfl, rfl, fun _ => rfl⟩

/-! ## One origin -/

/-- The documents of an origin. -/
def docsOf (origin : JSString) (provided : JSString → Option EntryData) : Set DocEntry :=
  {doc | ∃ docId data, provided docId = some data ∧ doc = data.toDoc origin docId}

theorem shows_iff {origin : JSString} :
    view.Shows origin provided s ↔ view.ShowsDocs (docsOf origin provided) s := by
  constructor
  · intro h
    refine ⟨h.settled, h.lists, h.noneOwn, fun p e hget hdoc => ?_, ?_⟩
    · obtain ⟨docId, data, hprovided, hrest⟩ := h.shown p e hget hdoc
      exact ⟨data.toDoc origin docId, ⟨docId, data, hprovided, rfl⟩, hrest⟩
    · rintro _ ⟨docId, data, hprovided, rfl⟩ haccepted
      exact h.placed docId data hprovided haccepted
  · intro h
    refine ⟨h.settled, h.lists, h.noneOwn, fun p e hget hdoc => ?_,
      fun docId data hprovided => h.placed _ ⟨docId, data, hprovided, rfl⟩⟩
    obtain ⟨_, ⟨docId, data, hprovided, rfl⟩, hrest⟩ := h.shown p e hget hdoc
    exact ⟨docId, data, hprovided, hrest⟩

theorem shows_initial (origin : JSString) : view.Shows origin (fun _ => none) view.initial := by
  have hempty : docsOf origin (fun _ => none) = ∅ :=
    Set.eq_empty_iff_forall_notMem.mpr fun doc h => by
      obtain ⟨docId, data, hprovided, -⟩ := h
      exact nomatch hprovided
  rw [shows_iff, hempty]
  exact showsDocs_initial

theorem provide_of_notMem {docId : JSString} (h : docId ∉ docIdsToRemove change) :
    change.provide provided docId = provided docId := by
  rw [mem_docIdsToRemove, not_or] at h
  rw [provide, Option.not_isSome_iff_eq_none.mp h.2]
  exact if_neg h.1

theorem providedAfter_docsOf : providedAfter change (docsOf change.origin provided)
    = docsOf change.origin (change.provide provided) := by
  ext doc
  constructor
  · rintro (⟨horigin, hget⟩ | ⟨⟨docId, data, hprovided, rfl⟩, hkept⟩)
    · refine ⟨doc.docId, ⟨doc.columnValues, doc.decryptionKeyId⟩, ?_, ?_⟩
      · rw [provide, hget]
      · rw [EntryData.toDoc, ← horigin]
    · refine ⟨docId, data, ?_, rfl⟩
      rw [provide_of_notMem fun hmem => hkept docId hmem rfl, hprovided]
  · rintro ⟨docId, data, hprovided, rfl⟩
    cases hadd : change.additions.get? docId with
    | some data' =>
      rw [provide, hadd] at hprovided
      obtain rfl := Option.some.inj hprovided
      exact .inl ⟨rfl, hadd⟩
    | none =>
      have hremoved : docId ∉ change.removals := by
        intro hmem
        rw [provide, hadd] at hprovided
        rw [if_pos hmem] at hprovided
        exact nomatch hprovided
      have hkept : docId ∉ docIdsToRemove change := by
        rw [mem_docIdsToRemove, hadd]
        simpa using hremoved
      rw [provide_of_notMem hkept] at hprovided
      exact .inr ⟨⟨docId, data, hprovided, rfl⟩, fun other hmem heq =>
        hkept (by rwa [show docId = other from scopedDocIdKey_inj heq])⟩

/-- **Every batch of the origin is shown.** -/
theorem Shows.applyChanges (h : view.Shows change.origin provided s)
    (hown : change.origin ≠ ORIGIN_VIRTUALVIEW) :
    view.Shows change.origin (change.provide provided) (view.applyChanges s change) := by
  rw [shows_iff, ← providedAfter_docsOf]
  exact (shows_iff.mp h).applyChanges hown

/-- **Views that were provided with the same documents show them at the same paths.** -/
theorem Shows.documentsAt {origin : JSString} (h : view.Shows origin provided s)
    (h' : view.Shows origin provided s') : DocumentsAt s s' :=
  (shows_iff.mp h).documentsAt (shows_iff.mp h') fun _ hdoc _ => hdoc

end VirtualView

end MindooDB
