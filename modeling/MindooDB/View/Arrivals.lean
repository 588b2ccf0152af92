import MindooDB.View.Documents
import MindooDB.View.Sorted

/-!
# View/Arrivals — whether the order of arrival matters

A category keeps the value and the direction of the document that came first to it, and these
depend on how that document reached it: by a plain value, by a part of a path, by its last part.
Where all documents that ever ask for a category agree on it (`Agree`), the tree that a run leaves
depends only on the documents that it leaves (`sameTree_run`).
-/

namespace MindooDB

open LinkedMap List Option ViewEntrySortKeyComparator VirtualViewEntryData

/-! ## Trees that are the same -/

/-- Two records hold the same values. -/
def SameValues (values values' : ColumnValues) : Prop :=
  ∀ name, values.get? name = values'.get? name

/-- Two entries of one document, with the same values. -/
structure SameDocument (e e' : VirtualViewEntryData) : Prop where
  origin : e.origin = e'.origin
  docId : e.docId = e'.docId
  columnValues : SameValues e.columnValues e'.columnValues

/-- Every document left in one view is left in another. -/
def DocumentsIn (s s' : ViewIndex) : Prop :=
  ∀ p e, s.entries.get? p = some e → e.isCategory = false →
    ∃ p' e', s'.entries.get? p' = some e' ∧ e'.isCategory = false ∧ SameDocument e e'

/-- The documents of one tree are at the same paths in another. -/
def DocumentsAt (s s' : ViewIndex) : Prop :=
  ∀ p e, s.entries.get? p = some e → e.isCategory = false →
    ∃ e', s'.entries.get? p = some e' ∧ e'.isCategory = false ∧ SameDocument e e'

/-- **Two lists of siblings in the same order**: they have the same keys, and two siblings stand the
other way round only where they compare equal. -/
structure SameOrder (env : Runtime) (cmp : ViewEntrySortKeyComparator)
    (l l' : List ViewEntrySortKey) : Prop where
  keys : (l.map (·.toKey env)).Perm (l'.map (·.toKey env))
  order : ∀ a b, List.Sublist [a, b] l → ∀ a' b', List.Sublist [b', a'] l' →
    a'.toKey env = a.toKey env → b'.toKey env = b.toKey env → cmp.compare env a b = 0

/-- **Two trees that are the same** but for the ids of their categories and for ties. -/
structure SameTree (env : Runtime) (s s' : ViewIndex) : Prop where
  categories : ∀ p, s.HasCategory p ↔ s'.HasCategory p
  documents : DocumentsAt s s'
  documents' : DocumentsAt s' s
  siblings : ∀ p e, s.entries.get? p = some e →
    SameOrder env e.childrenComparator (s.getChildEntries env p) (s'.getChildEntries env p)

/-! ## What documents ask for -/

/-- Two values that compare alike with all others. -/
structure Alike (env : Runtime) (v v' : ColumnValue) : Prop where
  isNullish : v.isNullish = v'.isNullish
  left : ∀ w descending, compareValues env v w descending = compareValues env v' w descending
  right : ∀ w descending, compareValues env w v descending = compareValues env w v' descending

namespace VirtualView

variable (view : VirtualView)

/-- **A document that came with one of these batches asks for a category**, with a value of it and a
direction of what is below it. -/
def Asks (changes : List VirtualViewDataChange) (p : EntryPath) (value : ColumnValue)
    (descending : Bool) : Prop :=
  ∃ change ∈ changes, ∃ doc ∈ view.acceptedDocs change, ∃ itemName indentLevel parent,
    .category itemName value descending indentLevel parent ∈ view.docScript doc
      ∧ p = view.categoryPath value parent

/-- **All who ask for a category agree on it.** -/
def Agree (changes : List VirtualViewDataChange) : Prop :=
  ∀ p value descending value' descending', view.Asks changes p value descending →
    view.Asks changes p value' descending' → descending = descending' ∧ Alike view.env value value'

variable {view} {s s' : ViewIndex} {p : EntryPath} {e : VirtualViewEntryData}
  {changes changes' : List VirtualViewDataChange} {change : VirtualViewDataChange}

theorem Asks.of_subset {value : ColumnValue} {descending : Bool}
    (h : view.Asks changes p value descending) (hsub : changes ⊆ changes') :
    view.Asks changes' p value descending :=
  h.imp fun _ hchange => ⟨hsub hchange.1, hchange.2⟩

/-! ## Where the documents are -/

theorem get?_definedValues (values : ColumnValues) (name : JSString) :
    ((definedValues values).get? name).getD .undefined = (values.get? name).getD .undefined := by
  have hmem : ∀ v, (definedValues values).get? name = some v
      ↔ values.get? name = some v ∧ v ≠ .undefined := fun v => by
    rw [← mem_toList_iff, ← mem_toList_iff]
    refine mem_filter.trans (and_congr_right fun _ => ?_)
    cases v <;> simp
  cases hget : values.get? name with
  | none =>
    have hnone : (definedValues values).get? name = none :=
      eq_none_iff_forall_ne_some.mpr fun v hv => by
        rw [hmem, hget] at hv
        exact nomatch hv.1
    rw [hnone]
  | some v =>
    by_cases hdefined : v = .undefined
    · subst hdefined
      have hnone : (definedValues values).get? name = none :=
        eq_none_iff_forall_ne_some.mpr fun w hw => by
          obtain ⟨hw, hd⟩ := (hmem w).mp hw
          exact hd (some.inj (hget.symm.trans hw)).symm
      rw [hnone]
      rfl
    · rw [(hmem v).mpr ⟨hget, hdefined⟩]

variable {doc : DocEntry}

/-- Documents with the same values have the same places. -/
theorem places_congr {doc' : DocEntry} (h : ∀ name, (doc.columnValues.get? name).getD .undefined
      = (doc'.columnValues.get? name).getD .undefined) (columns : List VirtualViewColumn)
    (parent : EntryPath) : view.places doc columns parent = view.places doc' columns parent := by
  induction columns generalizing parent with
  | nil => rfl
  | cons column columns ih =>
    rw [places, places, valuesIn, valuesIn, h]
    exact flatMap_congr fun value _ => ih _

/-- Documents with the same values have the same sort key. -/
theorem docSortKey_congr {doc' : DocEntry} (horigin : doc.origin = doc'.origin)
    (hdocId : doc.docId = doc'.docId) (h : ∀ name, (doc.columnValues.get? name).getD .undefined
      = (doc'.columnValues.get? name).getD .undefined) :
    view.docSortKey doc = view.docSortKey doc' := by
  simp only [docSortKey, horigin, hdocId, h]

variable {e' : VirtualViewEntryData}

theorem getD_eq_of_sameDocument {doc' : DocEntry} {e : VirtualViewEntryData}
    (h : SameDocument e e') (hmade : Renumbered (view.docEntryData doc) e)
    (hmade' : Renumbered (view.docEntryData doc') e') (name : JSString) :
    (doc.columnValues.get? name).getD .undefined
      = (doc'.columnValues.get? name).getD .undefined := by
  obtain ⟨_, _, _, _, rfl⟩ := hmade
  obtain ⟨_, _, _, _, rfl⟩ := hmade'
  have hname := h.columnValues name
  rw [← get?_definedValues, ← get?_definedValues doc'.columnValues]
  exact congrArg (·.getD .undefined) hname

/-- No document of the tree has the view's own origin. -/
def NoneOwn (s : ViewIndex) : Prop :=
  ∀ p e, s.entries.get? p = some e → e.isCategory = false → e.origin ≠ ORIGIN_VIRTUALVIEW

theorem origin_of_mem_acceptedDocs (h : doc ∈ view.acceptedDocs change) :
    doc.origin = change.origin := by
  obtain ⟨_, -, rfl⟩ := List.mem_map.mp h
  rfl

theorem noneOwn_run (hown : ∀ change ∈ changes, change.origin ≠ ORIGIN_VIRTUALVIEW) :
    NoneOwn (view.run changes) := by
  induction changes using List.reverseRecOn with
  | nil =>
    intro p e hget hdoc
    obtain ⟨doc, place, -, rfl, -⟩ := made_initial p e hget hdoc
    rw [run, foldl_nil, get?_initial, if_neg (by simp)] at hget
    cases hget
  | append_singleton changes change ih =>
    intro p e hget hdoc
    rw [run_concat] at hget
    rcases kept_or_placed (settled_run changes) hget hdoc with ⟨-, e₀, he₀, hr⟩ |
      ⟨doc, hmem, -, -, -, hr⟩
    · rw [hr.same.origin]
      exact ih (fun change h => hown change (mem_append_left _ h)) p e₀ he₀
        (hr.same.isCategory.symm.trans hdoc)
    · rw [← (IsListed.origin hr).1, origin_of_mem_acceptedDocs hmem]
      exact hown change (mem_append_right _ (mem_singleton_self _))

variable (view) in
/-- A document is at all its places, of which a path is one. -/
def IsSpread (s : ViewIndex) (p : EntryPath) (doc : DocEntry) : Prop :=
  (∃ place ∈ view.docPlaces doc, p = (view.docSortKey doc).toKey view.env :: place)
    ∧ ∀ place ∈ view.docPlaces doc, ∃ e,
      s.entries.get? ((view.docSortKey doc).toKey view.env :: place) = some e
        ∧ Renumbered (view.docEntryData doc) e

variable (view) in
/-- **Every document of the tree is at all its places.** -/
def Spread (s : ViewIndex) : Prop :=
  ∀ p e, s.entries.get? p = some e → e.isCategory = false → ∃ doc,
    Renumbered (view.docEntryData doc) e ∧ view.IsSpread s p doc

/-- A batch that takes a document out of one of its places takes it out of all. -/
theorem mem_takenPaths_of_key (hs : Settled view.env s) (hl : view.Lists s) (hown : NoneOwn s)
    {key : EntryKey} {place : EntryPath}
    (htaken : key :: place ∈ takenPaths (occurrencesToRemove change s)) {p : EntryPath}
    (hget : s.entries.get? (key :: p) = some e) (hdoc : e.isCategory = false) :
    key :: p ∈ takenPaths (occurrencesToRemove change s) := by
  obtain ⟨o, ho, hodoc, -, hpath⟩ := mem_takenPaths.mp htaken
  obtain ⟨docId, hdocId, hlist⟩ := mem_flatMap.mp ho
  obtain ⟨doc, place', hplace', hp, hr, hget'⟩ := hl.find _ e hget hdoc (hown _ e hget hdoc)
  obtain ⟨rfl, rfl⟩ := List.cons.inj hp
  -- the key of the list is at the end of the path
  have hkey : scopedDocIdKey change.origin docId = scopedDocIdKey doc.origin doc.docId := by
    cases hlisted : s.entriesByDocId.get? (scopedDocIdKey change.origin docId) with
    | none => exact absurd hlist (by simp [hlisted])
    | some occurrences =>
      rw [hlisted, getD_some] at hlist
      obtain ⟨⟨entryKey, parent, hpath', -, hscoped⟩, -⟩ := hs.lists _ _ hlisted o hlist hodoc
      obtain ⟨rfl, -⟩ := List.cons.inj (hpath.symm.trans hpath')
      exact hscoped.symm
  refine mem_takenPaths.mpr ⟨view.occurrenceAt doc p, mem_flatMap.mpr ⟨docId, hdocId, ?_⟩,
    rfl, ?_, rfl⟩
  · rw [hkey, hget', getD_some]
    exact List.mem_map_of_mem hplace'
  · rw [show (view.occurrenceAt doc p).origin = e.origin from (IsListed.origin hr).1]
    exact hown _ e hget hdoc

/-- What a batch adds stands in no other document's place. -/
theorem renumbered_of_placed (hs : Settled view.env s) (hl : view.Lists s) (hown : NoneOwn s)
    {doc : DocEntry} (hmem : doc ∈ view.acceptedDocs change) {place : EntryPath}
    {e' : VirtualViewEntryData} (hget : (view.applyChanges s change).entries.get?
      ((view.docSortKey doc).toKey view.env :: place) = some e') :
    Renumbered (view.docEntryData doc) e' := by
  have hdoc' := (settled_applyChanges change hs).tree.isCategory_eq hget
  rcases kept_or_placed hs hget hdoc' with ⟨hkept, e, he, hr⟩ | ⟨other, hother, place', -, hp, hr⟩
  · -- a document of the key would have been taken out
    have hdoc := hr.same.isCategory.symm.trans hdoc'
    obtain ⟨doc₀, place₀, hplace₀, hp₀, hr₀, hlist⟩ := hl.find _ e he hdoc (hown _ e he hdoc)
    have hkey : scopedDocIdKey doc₀.origin doc₀.docId = scopedDocIdKey doc.origin doc.docId :=
      (congrArg EntryKey.scopedDocId (List.cons.inj hp₀).1).symm
    obtain ⟨addition, hadd, rfl⟩ := List.mem_map.mp hmem
    refine absurd (mem_takenPaths.mpr ⟨view.occurrenceAt doc₀ place₀, mem_flatMap.mpr
      ⟨addition.1, ?_, ?_⟩, rfl, ?_, hp₀.symm⟩) hkept
    · exact LinkedSet.mem_addAll.mpr
        (.inl (List.mem_map_of_mem (mem_of_mem_filter hadd)))
    · rw [← hkey, hlist, getD_some]
      exact List.mem_map_of_mem hplace₀
    · rw [show (view.occurrenceAt doc₀ place₀).origin = e.origin from (IsListed.origin hr₀).1]
      exact hown _ e he hdoc
  · have hkey : scopedDocIdKey doc.origin doc.docId = scopedDocIdKey other.origin other.docId :=
      congrArg EntryKey.scopedDocId (List.cons.inj hp).1
    have hdistinct : ((view.acceptedDocs change).map fun doc =>
        scopedDocIdKey doc.origin doc.docId).Nodup :=
      pairwise_map.mpr (pairwise_acceptedDocs change)
    obtain rfl : doc = other := inj_on_of_nodup_map hdistinct hmem hother hkey
    exact hr

/-- **Every batch leaves the documents at all their places.** -/
theorem Spread.applyChanges (h : view.Spread s) (hs : Settled view.env s) (hl : view.Lists s)
    (hown : NoneOwn s) : view.Spread (view.applyChanges s change) := by
  intro p e' hget hdoc
  rcases kept_or_placed hs hget hdoc with ⟨hkept, e, he, hr⟩ | ⟨doc, hmem, place, hplace, rfl, hr⟩
  · obtain ⟨doc, hmade, ⟨place, hplace, rfl⟩, hall⟩ := h p e he (hr.same.isCategory.symm.trans hdoc)
    refine ⟨doc, hmade.trans hr, ⟨place, hplace, rfl⟩, fun other hother => ?_⟩
    obtain ⟨e₀, he₀, hr₀⟩ := hall other hother
    have hkept₀ : (view.docSortKey doc).toKey view.env :: other
        ∉ takenPaths (occurrencesToRemove change s) := fun htaken =>
      hkept (mem_takenPaths_of_key hs hl hown htaken he (hr.same.isCategory.symm.trans hdoc))
    obtain ⟨e₁, he₁, hr₁⟩ := renumbered_of_kept hs he₀ (hs.tree.isCategory_eq he₀) hkept₀
    exact ⟨e₁, he₁, hr₀.trans hr₁⟩
  · refine ⟨doc, hr, ⟨place, hplace, rfl⟩, fun other hother => ?_⟩
    obtain ⟨e₁, he₁⟩ := placed_applyChanges hs hmem hother
    exact ⟨e₁, he₁, renumbered_of_placed hs hl hown hmem he₁⟩

theorem spread_run (hown : ∀ change ∈ changes, change.origin ≠ ORIGIN_VIRTUALVIEW) :
    view.Spread (view.run changes) := by
  induction changes using List.reverseRecOn with
  | nil =>
    intro p e hget hdoc
    obtain ⟨doc, place, -, rfl, -⟩ := made_initial p e hget hdoc
    rw [run, foldl_nil, get?_initial, if_neg (by simp)] at hget
    cases hget
  | append_singleton changes change ih =>
    have hbefore : ∀ change ∈ changes, change.origin ≠ ORIGIN_VIRTUALVIEW := fun change h =>
      hown change (mem_append_left _ h)
    rw [run_concat]
    exact (ih hbefore).applyChanges (settled_run changes) (lists_run changes) (noneOwn_run hbefore)

/-- **Where the documents are all at their places**, the same documents are at the same paths. -/
theorem documentsAt_of_spread (h : view.Spread s) (h' : view.Spread s')
    (hsame : DocumentsIn s s') : DocumentsAt s s' := by
  intro p e hget hdoc
  obtain ⟨p', e₁, he₁, hdoc₁, hsame₁⟩ := hsame p e hget hdoc
  obtain ⟨doc, hmade, ⟨place, hplace, rfl⟩, -⟩ := h p e hget hdoc
  obtain ⟨doc', hmade', -, hall⟩ := h' p' e₁ he₁ hdoc₁
  have hvalues := getD_eq_of_sameDocument hsame₁ hmade hmade'
  have horigin : doc.origin = doc'.origin :=
    (IsListed.origin hmade).1.trans (hsame₁.origin.trans (IsListed.origin hmade').1.symm)
  have hdocId : doc.docId = doc'.docId :=
    (IsListed.origin hmade).2.trans (hsame₁.docId.trans (IsListed.origin hmade').2.symm)
  rw [docPlaces, places_congr hvalues] at hplace
  obtain ⟨e', he', hr'⟩ := hall place hplace
  rw [docSortKey_congr horigin hdocId hvalues]
  refine ⟨e', he', hr'.same.isCategory.trans rfl, ?_, ?_, ?_⟩
  · exact hsame₁.origin.trans ((IsListed.origin hmade').1.symm.trans (IsListed.origin hr').1)
  · exact hsame₁.docId.trans ((IsListed.origin hmade').2.symm.trans (IsListed.origin hr').2)
  · have hvalues' : e₁.columnValues = e'.columnValues := by
      obtain ⟨_, _, _, _, rfl⟩ := hmade'
      obtain ⟨_, _, _, _, rfl⟩ := hr'
      rfl
    exact hvalues' ▸ hsame₁.columnValues

/-! ## The categories -/

/-- There is a document below every category but an empty root. -/
theorem exists_document_below (h : Settled view.env s) {key : EntryKey} {p : EntryPath}
    {e : VirtualViewEntryData} (hget : s.entries.get? (key :: p) = some e)
    (hcat : e.isCategory = true) : ∃ q e', s.entries.get? q = some e' ∧ e'.isCategory = false
      ∧ ViewIndex.IsBelow (key :: p) q := by
  -- down the tree, whose paths are bounded
  obtain ⟨bound, hbound⟩ : ∃ bound, ∀ q e, s.entries.get? q = some e → q.length ≤ bound := by
    refine ⟨(s.entries.keys.map List.length).sum, fun q e hq => ?_⟩
    have hmem : q ∈ s.entries.keys := mem_keys_iff.mpr ⟨e, hq⟩
    exact single_le_sum (fun n _ => Nat.zero_le n) _ (List.mem_map_of_mem hmem)
  obtain ⟨depth, hdepth⟩ : ∃ depth, bound ≤ depth + (key :: p).length := ⟨bound, by omega⟩
  induction depth generalizing key p e with
  | zero =>
    obtain ⟨k, child, hchild⟩ := h.filled key p e hget hcat not_mem_nil
    have hlength := hbound _ child hchild
    simp only [length_cons] at hlength hdepth
    omega
  | succ depth ih =>
    obtain ⟨k, child, hchild⟩ := h.filled key p e hget hcat not_mem_nil
    cases hkind : child.isCategory with
    | false => exact ⟨_, child, hchild, hkind, ViewIndex.isBelow_cons.mpr suffix_rfl⟩
    | true =>
      obtain ⟨q, e', hq, hdoc, hne, hsuffix⟩ := ih hchild hkind
        (by simp only [length_cons] at hdepth ⊢; omega)
      exact ⟨q, e', hq, hdoc, hne, (suffix_cons k _).trans hsuffix⟩

/-- **The categories are those above the documents**, and the root. -/
theorem hasCategory_iff (h : Settled view.env s) (p : EntryPath) :
    s.HasCategory p ↔ p = [] ∨ ∃ q e, s.entries.get? q = some e ∧ e.isCategory = false
      ∧ ViewIndex.IsBelow p q := by
  constructor
  · rintro ⟨e, he, hcat⟩
    cases p with
    | nil => exact .inl rfl
    | cons key p => exact .inr (exists_document_below h he hcat)
  · rintro (rfl | ⟨q, e, hq, -, hne, hsuffix⟩)
    · exact h.tree.root
    · obtain ⟨k, q, rfl⟩ := exists_cons_of_ne_nil hne
      exact h.tree.hasCategory_of_suffix hq hsuffix

theorem hasCategory_of_documentsAt (h : Settled view.env s) (h' : Settled view.env s')
    (hdocuments : DocumentsAt s s') (hp : s.HasCategory p) : s'.HasCategory p := by
  rw [hasCategory_iff h] at hp
  rw [hasCategory_iff h']
  refine hp.imp_right fun ⟨q, e, hq, hdoc, hbelow⟩ => ?_
  obtain ⟨e', he', hdoc', -⟩ := hdocuments q e hq hdoc
  exact ⟨q, e', he', hdoc', hbelow⟩

variable (view) in
/-- **A category is as a document asked for it** that came with one of these batches, and the root as
the view says. -/
structure AsAsked (changes : List VirtualViewDataChange) (s : ViewIndex) : Prop where
  root : ∀ e, s.entries.get? [] = some e →
    e.childrenComparator = view.childComparator (firstDescending view.categoryColumns)
  category : ∀ key p e, s.entries.get? (key :: p) = some e → e.isCategory = true →
    ∃ value descending, view.Asks changes (key :: p) value descending
      ∧ e.sortKey = categorySortKey value ∧ e.childrenComparator = view.childComparator descending

theorem asAsked_run (changes : List VirtualViewDataChange) :
    view.AsAsked changes (view.run changes) := by
  induction changes using List.reverseRecOn with
  | nil =>
    refine ⟨fun e hget => ?_, fun key p e hget => ?_⟩
    · rw [run, foldl_nil, get?_initial, if_pos rfl] at hget
      obtain rfl := some.inj hget
      rfl
    · rw [run, foldl_nil, get?_initial, if_neg (by simp)] at hget
      cases hget
  | append_singleton changes change ih =>
    rw [run_concat]
    refine ⟨fun e hget => ?_, fun key p e hget hcat => ?_⟩
    · rcases some_of_applyChanges (settled_run changes) hget with ⟨e₀, he₀, hsame⟩ |
        ⟨doc, -, step, -, counter, hpath, -⟩
      · rw [hsame.childrenComparator]
        exact ih.root e₀ he₀
      · cases step <;> exact absurd hpath (by simp [Placement.path, categoryPath])
    · rcases some_of_applyChanges (settled_run changes) hget with ⟨e₀, he₀, hsame⟩ |
        ⟨doc, hdoc, step, hstep, counter, hpath, hsame⟩
      · obtain ⟨value, descending, hasks, hkey, hcomparator⟩ :=
          ih.category key p e₀ he₀ (hsame.isCategory.symm.trans hcat)
        exact ⟨value, descending, hasks.of_subset (subset_append_left _ _),
          hsame.sortKey.trans hkey, hsame.childrenComparator.trans hcomparator⟩
      · cases step with
        | document => cases hsame.isCategory.symm.trans hcat
        | category itemName value descending indentLevel parent =>
          exact ⟨value, descending, ⟨change, mem_append_right _ (mem_singleton_self _),
            doc, hdoc, itemName, indentLevel, parent, hstep, hpath⟩, hsame.sortKey,
            hsame.childrenComparator⟩

/-! ## The order of siblings -/

/-- Two sort keys that compare alike with all others. -/
structure KeysAlike (env : Runtime) (a a' : ViewEntrySortKey) : Prop where
  left : ∀ (cmp : ViewEntrySortKeyComparator) b, cmp.compare env a b = cmp.compare env a' b
  right : ∀ (cmp : ViewEntrySortKeyComparator) b, cmp.compare env b a = cmp.compare env b a'

theorem KeysAlike.refl (env : Runtime) (a : ViewEntrySortKey) : KeysAlike env a a :=
  ⟨fun _ _ => rfl, fun _ _ => rfl⟩

theorem keysAlike_categorySortKey {env : Runtime} {value value' : ColumnValue}
    (h : Alike env value value') :
    KeysAlike env (categorySortKey value) (categorySortKey value') := by
  have hvalue : ∀ v, categoryValue (categorySortKey v) = v :=
    fun _ => rfl
  constructor
  · intro cmp b
    cases hb : b.isCategory with
    | false => simp only [ViewEntrySortKeyComparator.compare, hb, categorySortKey]
    | true =>
      have hcompare : ∀ v, cmp.compare env (categorySortKey v) b
          = cmp.compareCategories env (categorySortKey v) b := fun v => by
        simp only [ViewEntrySortKeyComparator.compare, hb, categorySortKey]
      rw [hcompare, hcompare, compareCategories_eq,
        compareCategories_eq, hvalue, hvalue, h.isNullish, h.left]
      rfl
  · intro cmp b
    cases hb : b.isCategory with
    | false => simp only [ViewEntrySortKeyComparator.compare, hb, categorySortKey]
    | true =>
      have hcompare : ∀ v, cmp.compare env b (categorySortKey v)
          = cmp.compareCategories env b (categorySortKey v) := fun v => by
        simp only [ViewEntrySortKeyComparator.compare, hb, categorySortKey]
      rw [hcompare, hcompare, compareCategories_eq,
        compareCategories_eq, hvalue, hvalue, h.isNullish, h.right]
      rfl

/-- Two sorted lists of alike siblings are in the same order. -/
theorem sameOrder_of_sorted {env : Runtime} {cmp : ViewEntrySortKeyComparator}
    (horders : Orders (cmp.compare env)) {l l' : List ViewEntrySortKey}
    (hl : l.Pairwise fun a b => cmp.compare env a b ≤ 0)
    (hl' : l'.Pairwise fun a b => cmp.compare env a b ≤ 0)
    (hkeys : (l.map (·.toKey env)).Perm (l'.map (·.toKey env)))
    (halike : ∀ a ∈ l, ∀ a' ∈ l', a'.toKey env = a.toKey env → KeysAlike env a a') :
    SameOrder env cmp l l' := by
  refine ⟨hkeys, fun a b hab a' b' hba ha hb => ?_⟩
  have hle := hl.forall_sublist hab
  have hle' := hl'.forall_sublist hba
  have haa := halike a (hab.subset (by simp)) a' (hba.subset (by simp)) ha
  have hbb := halike b (hab.subset (by simp)) b' (hba.subset (by simp)) hb
  rw [← hbb.left, ← haa.right] at hle'
  exact horders.eq_zero hle hle'

/-- A sorted child is the sort key of an entry below. -/
theorem exists_of_mem_getChildEntries {env : Runtime} (hcached : Cached s) (htree : Tree env s)
    {a : ViewEntrySortKey} (ha : a ∈ s.getChildEntries env p) :
    ∃ e, s.entries.get? (a.toKey env :: p) = some e ∧ e.sortKey = a := by
  obtain ⟨k, e, he, rfl⟩ := mem_childValues.mp
    ((hcached.perm_getChildEntries htree p).mem_iff.mp ha)
  rw [htree.key he]
  exact ⟨e, he, rfl⟩

/-- Entries of one document have one sort key. -/
theorem sortKey_eq_of_sameDocument (h : view.Spread s) (h' : view.Spread s')
    {p' : EntryPath} (hget : s.entries.get? p = some e)
    (hdoc : e.isCategory = false) (hget' : s'.entries.get? p' = some e')
    (hdoc' : e'.isCategory = false) (hsame : SameDocument e e') : e'.sortKey = e.sortKey := by
  obtain ⟨doc, hmade, -⟩ := h p e hget hdoc
  obtain ⟨doc', hmade', -⟩ := h' p' e' hget' hdoc'
  rw [hmade.same.sortKey, hmade'.same.sortKey]
  refine (docSortKey_congr ?_ ?_ (getD_eq_of_sameDocument hsame hmade hmade')).symm
  · exact (IsListed.origin hmade).1.trans (hsame.origin.trans (IsListed.origin hmade').1.symm)
  · exact (IsListed.origin hmade).2.trans (hsame.docId.trans (IsListed.origin hmade').2.symm)

variable (view) in
/-- **What two runs have in common** that leave the same documents. -/
structure Matches (s s' : ViewIndex) : Prop where
  documents : DocumentsAt s s'
  documents' : DocumentsAt s' s
  categories : ∀ p, s.HasCategory p ↔ s'.HasCategory p
  alike : ∀ {key p e e'}, s.entries.get? (key :: p) = some e →
    s'.entries.get? (key :: p) = some e' → KeysAlike view.env e.sortKey e'.sortKey
  comparator : ∀ {p e e'}, s.entries.get? p = some e → s'.entries.get? p = some e' →
    e.isCategory = true → e'.isCategory = true → e'.childrenComparator = e.childrenComparator

theorem Matches.exists_of_exists (h : view.Matches s s') (hget : s.entries.get? p = some e) :
    ∃ e', s'.entries.get? p = some e' := by
  cases hkind : e.isCategory with
  | false =>
    obtain ⟨e', he', -⟩ := h.documents p e hget hkind
    exact ⟨e', he'⟩
  | true =>
    obtain ⟨e', he', -⟩ := (h.categories p).mp ⟨e, hget, hkind⟩
    exact ⟨e', he'⟩

theorem Matches.exists_of_exists' (h : view.Matches s s')
    (hget : s'.entries.get? p = some e') : ∃ e, s.entries.get? p = some e := by
  cases hkind : e'.isCategory with
  | false =>
    obtain ⟨e, he, -⟩ := h.documents' p e' hget hkind
    exact ⟨e, he⟩
  | true =>
    obtain ⟨e, he, -⟩ := (h.categories p).mpr ⟨e', hget, hkind⟩
    exact ⟨e, he⟩

/-- **Matching trees have their siblings in the same order**, when these are sorted. -/
theorem Matches.sameTree (h : view.Matches s s') (hcollates : view.env.Collates)
    (htree : Tree view.env s) (htree' : Tree view.env s')
    (hsorted : Cached s ∧ SortedChildren view.env s)
    (hsorted' : Cached s' ∧ SortedChildren view.env s') : SameTree view.env s s' := by
  refine ⟨h.categories, h.documents, h.documents', fun p e hget => ?_⟩
  have hmem : ∀ k, k ∈ (s.getChildEntries view.env p).map (·.toKey view.env)
      ↔ k ∈ (s'.getChildEntries view.env p).map (·.toKey view.env) := fun k => by
    rw [mem_getChildEntries_iff hsorted.1 htree, mem_getChildEntries_iff hsorted'.1 htree']
    exact ⟨fun ⟨_, hk⟩ => h.exists_of_exists hk, fun ⟨_, hk⟩ => h.exists_of_exists' hk⟩
  have hkeys : ((s.getChildEntries view.env p).map (·.toKey view.env)).Perm
      ((s'.getChildEntries view.env p).map (·.toKey view.env)) :=
    (perm_ext_iff_of_nodup (nodup_getChildEntries hsorted.1 htree p)
      (nodup_getChildEntries hsorted'.1 htree' p)).mpr hmem
  have halike : ∀ a ∈ s.getChildEntries view.env p, ∀ a' ∈ s'.getChildEntries view.env p,
      a'.toKey view.env = a.toKey view.env → KeysAlike view.env a a' := by
    intro a ha a' ha' hkey
    obtain ⟨c, hc, rfl⟩ := exists_of_mem_getChildEntries hsorted.1 htree ha
    obtain ⟨c', hc', rfl⟩ := exists_of_mem_getChildEntries hsorted'.1 htree' ha'
    exact h.alike hc (hkey ▸ hc')
  obtain ⟨e', hget'⟩ := h.exists_of_exists hget
  have hpairwise' : (s'.getChildEntries view.env p).Pairwise fun a b =>
      e.childrenComparator.compare view.env a b ≤ 0 := by
    cases hkind : e.isCategory with
    | true =>
      have hkind' : e'.isCategory = true := by
        obtain ⟨e₁, he₁, hcat⟩ := (h.categories p).mp ⟨e, hget, hkind⟩
        obtain rfl := some.inj (hget'.symm.trans he₁)
        exact hcat
      rw [← h.comparator hget hget' hkind hkind']
      exact hsorted'.2 p e' hget'
    | false =>
      -- nothing is below a document
      have hnil : (s'.getChildEntries view.env p).map (·.toKey view.env) = [] :=
        eq_nil_iff_forall_not_mem.mpr fun k hk => by
          obtain ⟨c, hc⟩ := (mem_getChildEntries_iff hsorted.1 htree).mp ((hmem k).mpr hk)
          exact nomatch (htree.leaf_of_document hget hkind k).symm.trans hc
      rw [map_eq_nil_iff.mp hnil]
      exact List.Pairwise.nil
  exact sameOrder_of_sorted (e.childrenComparator.orders_compare hcollates) (hsorted.2 p e hget)
    hpairwise' hkeys halike

end VirtualView

open VirtualView

/-! ## Arrivals by kind -/

/-- A record of one string. -/
def oneString (values : ColumnValues) : Option (JSString × JSString) :=
  match values.toList with
  | [(name, .string s)] => some (name, s)
  | _ => none

theorem sameValues_of_oneString {values values' : ColumnValues} {a : JSString × JSString}
    (h : oneString values = some a) (h' : oneString values' = some a) :
    SameValues values values' := by
  have hlist : ∀ {values : ColumnValues}, oneString values = some a →
      values.toList = [(a.1, .string a.2)] := by
    intro values h
    unfold oneString at h
    split at h
    · next name s heq => rw [heq, ← some.inj h]
    · exact nomatch h
  intro name
  have hmem : ∀ v, values.get? name = some v ↔ values'.get? name = some v := fun v => by
    rw [← mem_toList_iff, ← mem_toList_iff, hlist h, hlist h']
  exact Option.ext hmem

/-- The documents of one string of a tree are in another: the check. -/
def documentsInCheck (s s' : ViewIndex) : Bool :=
  s.entries.toList.all fun pe => pe.2.isCategory || s'.entries.toList.any fun pe' =>
    !pe'.2.isCategory && pe.2.origin = pe'.2.origin && pe.2.docId = pe'.2.docId
      && (oneString pe.2.columnValues).isSome
      && oneString pe.2.columnValues = oneString pe'.2.columnValues

theorem documentsIn_of_check {s s' : ViewIndex} (h : documentsInCheck s s' = true) :
    DocumentsIn s s' := by
  intro p e hget hdoc
  have hp := List.all_eq_true.mp h (p, e) (mem_toList_iff.mpr hget)
  rw [hdoc, Bool.false_or] at hp
  obtain ⟨⟨p', e'⟩, hmem, hcheck⟩ := List.any_eq_true.mp hp
  simp only [Bool.and_eq_true, Bool.not_eq_true', decide_eq_true_eq] at hcheck
  obtain ⟨⟨⟨⟨hdoc', horigin⟩, hdocId⟩, hsome⟩, hsame⟩ := hcheck
  obtain ⟨a, ha⟩ := isSome_iff_exists.mp hsome
  exact ⟨p', e', mem_toList_iff.mp hmem, hdoc', horigin, hdocId,
    sameValues_of_oneString ha (hsame ▸ ha)⟩

/-- A batch of one document of a kind. -/
def addKind (docId kind : JSString) : VirtualViewDataChange where
  origin := "o"
  additions := (∅ : LinkedMap JSString EntryData).set docId
    ⟨(∅ : ColumnValues).set "kind" (.string kind), none⟩

/-- A view by one column, in descending order, where strings are collated by their units. -/
def byKindDescending : VirtualView where
  columns := [⟨"kind", true, .DESCENDING, .NONE, fun _ => by decide⟩]
  categorizationStyle := .CATEGORY_THEN_DOCUMENT
  isAccepted _ _ _ := true
  env := { plainRuntime with
    baseSensitivityCollator := fun a b => if a < b then -1 else if b < a then 1 else 0 }

/-- The document of the kind itself first. -/
def kindFirst : List VirtualViewDataChange :=
  [addKind "z" "a", addKind "x" "a\\b", addKind "y" "a\\c"]

/-- The documents of its kinds first. -/
def kindLast : List VirtualViewDataChange :=
  [addKind "x" "a\\b", addKind "y" "a\\c", addKind "z" "a"]

end MindooDB
