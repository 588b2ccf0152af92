import MindooDB.View.VirtualView

/-!
# View/Batch — what a batch does to the tree

Every change of the tree hangs one entry up (`ViewIndex.hang`) or takes one down
(`ViewIndex.unhang`), and tells the entries above it.  Which ones does not depend on the tree:
`addEntry` carries out the steps of a script that is read off the document
(`addEntry_eq_foldl_script`), and the removals of a batch run through a list of occurrences
(`applyRemovals_eq`).
-/

namespace MindooDB

open LinkedMap List ViewIndex VirtualViewEntryData

namespace ViewIndex

variable (env : Runtime) (s : ViewIndex)

/-- Hang an entry up below `parent`, `up` being what this changes from there on upward. -/
def hang (child : VirtualViewEntryData) (up : VirtualViewEntryData → VirtualViewEntryData)
    (parent : EntryPath) : ViewIndex :=
  { s with
    entries := ((s.entries.modify parent (gainChild env child)).set
      (child.sortKey.toKey env :: parent) child).modifyUp up parent
    pendingSiblingIndexFlush := s.pendingSiblingIndexFlush.add parent }

/-- Take the entry of a key down, `up` being what this changes from its parent on upward. -/
def unhang (child : VirtualViewEntryData) (up : VirtualViewEntryData → VirtualViewEntryData)
    (key : EntryKey) (parent : EntryPath) : ViewIndex :=
  { s with
    entries := ((s.entries.delete (key :: parent)).modify parent (loseChild env child)).modifyUp up
      parent
    pendingSiblingIndexFlush := s.pendingSiblingIndexFlush.add parent }

/-- There is a category at a path. -/
def HasCategory (path : EntryPath) : Prop :=
  ∃ entry, s.entries.get? path = some entry ∧ entry.isCategory = true

variable {env s}

/-! ## The entries after a change of the tree -/

theorem get?_hang (env : Runtime) (s : ViewIndex) (child : VirtualViewEntryData)
    (up : VirtualViewEntryData → VirtualViewEntryData) (parent path : EntryPath) :
    (s.hang env child up parent).entries.get? path
      = if path = child.sortKey.toKey env :: parent then some child
        else (s.entries.get? path).map fun e =>
          (if path <:+ parent then up else id)
            ((if path = parent then gainChild env child else id) e) := by
  rw [hang, get?_modifyUp, get?_set, get?_modify]
  by_cases hchild : path = child.sortKey.toKey env :: parent
  · have hnot : ¬path <:+ parent := fun h => by
      have hle := h.length_le
      rw [hchild, length_cons] at hle
      omega
    rw [if_neg hnot, if_pos hchild, if_pos hchild]
  · by_cases hparent : path = parent
    · subst hparent
      simp [hchild, Function.comp_def]
    · by_cases hup : path <:+ parent <;> simp [hchild, hparent, hup]

theorem get?_unhang (env : Runtime) (s : ViewIndex) (child : VirtualViewEntryData)
    (up : VirtualViewEntryData → VirtualViewEntryData) (key : EntryKey)
    (parent path : EntryPath) : (s.unhang env child up key parent).entries.get? path
      = if path = key :: parent then none
        else (s.entries.get? path).map fun e =>
          (if path <:+ parent then up else id)
            ((if path = parent then loseChild env child else id) e) := by
  rw [unhang, get?_modifyUp, get?_modify, get?_delete]
  by_cases hchild : path = key :: parent
  · simp [hchild]
  · by_cases hparent : path = parent
    · subst hparent
      simp [hchild, Function.comp_def]
    · by_cases hup : path <:+ parent <;> simp [hchild, hparent, hup]

end ViewIndex

namespace VirtualView

variable (view : VirtualView)

/-! ## The script of a document -/

/-- A step of `addEntry`. -/
inductive Placement where
  | category (itemName : JSString) (value : ColumnValue) (descending : Bool) (indentLevel : ℕ)
      (parent : EntryPath)
  | document (parent : EntryPath)

/-- The path of the category of a value. -/
def categoryPath (value : ColumnValue) (parent : EntryPath) : EntryPath :=
  (categorySortKey value).toKey view.env :: parent

/-- The value of a part of a category path. -/
def partValue (part : JSString) : ColumnValue := if part.isEmpty then .null else .string part

def partsScript (column : VirtualViewColumn) (nextDescending : Bool) :
    List JSString → ℕ → EntryPath → List Placement
  | [], _, _ => []
  | part :: parts, indentLevel, parent =>
    .category column.name (partValue part)
        (if parts.isEmpty then nextDescending else column.sorting = .DESCENDING) indentLevel parent
      :: partsScript column nextDescending parts (indentLevel + 1)
          (view.categoryPath (partValue part) parent)

def partsPath (parts : List JSString) (parent : EntryPath) : EntryPath :=
  parts.foldl (fun path part => view.categoryPath (partValue part) path) parent

def valueScript (column : VirtualViewColumn) (nextDescending : Bool) (value : ColumnValue)
    (parent : EntryPath) : List Placement :=
  match value with
  | .string text =>
    if text.includes "\\" then
      view.partsScript column nextDescending (text.split '\\') 0 parent
    else [.category column.name value nextDescending 0 parent]
  | _ => [.category column.name value nextDescending 0 parent]

def valuePath (value : ColumnValue) (parent : EntryPath) : EntryPath :=
  match value with
  | .string text =>
    if text.includes "\\" then view.partsPath (text.split '\\') parent
    else view.categoryPath value parent
  | _ => view.categoryPath value parent

/-- The values of a document in a category column. -/
def valuesIn (doc : DocEntry) (column : VirtualViewColumn) : List ColumnValue :=
  categoryValues ((doc.columnValues.get? column.name).getD .undefined)

/-- **The steps that place a document**, in order. -/
def script (doc : DocEntry) : List VirtualViewColumn → EntryPath → List Placement
  | [], parent => [.document parent]
  | column :: columns, parent => (valuesIn doc column).flatMap fun value =>
      view.valueScript column (firstDescending columns) value parent
        ++ script doc columns (view.valuePath value parent)

/-- The categories a document hangs in. -/
def places (doc : DocEntry) : List VirtualViewColumn → EntryPath → List EntryPath
  | [], parent => [parent]
  | column :: columns, parent => (valuesIn doc column).flatMap fun value =>
      places doc columns (view.valuePath value parent)

/-- Carry out a step. -/
def place (doc : DocEntry) (s : ViewIndex) : Placement → ViewIndex
  | .category itemName value descending indentLevel parent =>
    (view.enterCategory itemName value descending indentLevel parent s).2
  | .document parent => (view.addDocument doc parent s).2

/-- A document as it is listed at one of its places. -/
def occurrenceAt (doc : DocEntry) (parent : EntryPath) : Occurrence where
  path := (view.docSortKey doc).toKey view.env :: parent
  isCategory := false
  origin := doc.origin
  docId := doc.docId
  columnValues := definedValues doc.columnValues
  decryptionKeyId := doc.decryptionKeyId

variable {view}

theorem enterCategory_fst (itemName : JSString) (value : ColumnValue) (descending : Bool)
    (indentLevel : ℕ) (parent : EntryPath) (s : ViewIndex) :
    (view.enterCategory itemName value descending indentLevel parent s).1
      = view.categoryPath value parent := by
  rw [enterCategory]
  split <;> rfl

theorem enterParts_eq (column : VirtualViewColumn) (nextDescending : Bool) (doc : DocEntry)
    (parts : List JSString) (indentLevel : ℕ) (parent : EntryPath) (s : ViewIndex) :
    view.enterParts column nextDescending parts indentLevel parent s
      = (view.partsPath parts parent,
          (view.partsScript column nextDescending parts indentLevel parent).foldl
            (view.place doc) s) := by
  induction parts generalizing indentLevel parent s with
  | nil => rfl
  | cons part parts ih =>
    rw [enterParts]
    simp only [enterCategory_fst, ih]
    rfl

theorem enterValue_eq (column : VirtualViewColumn) (columns : List VirtualViewColumn)
    (doc : DocEntry) (value : ColumnValue) (parent : EntryPath) (s : ViewIndex) :
    view.enterValue column columns value parent s
      = (view.valuePath value parent,
          (view.valueScript column (firstDescending columns) value parent).foldl
            (view.place doc) s) := by
  have hsimple : view.enterCategory column.name value (firstDescending columns) 0 parent s
      = (view.categoryPath value parent,
          (view.enterCategory column.name value (firstDescending columns) 0 parent s).2) :=
    Prod.ext (enterCategory_fst ..) rfl
  cases value with
  | string text =>
    simp only [enterValue, valuePath, valueScript]
    split
    · exact enterParts_eq column _ doc _ 0 parent s
    · exact hsimple
  | _ => exact hsimple

/-- **`addEntry` carries out the script of the document**, whatever is in the tree. -/
theorem addEntry_eq_foldl_script (doc : DocEntry) (columns : List VirtualViewColumn)
    (parent : EntryPath) (s : ViewIndex) :
    view.addEntry doc columns parent s
      = ((view.places doc columns parent).map (view.occurrenceAt doc),
          (view.script doc columns parent).foldl (view.place doc) s) := by
  induction columns generalizing parent s with
  | nil => rfl
  | cons column columns ih =>
    rw [addEntry, places, script]
    change (valuesIn doc column).foldl _ _ = _
    suffices h : ∀ (values : List ColumnValue) (created : List Occurrence) (s : ViewIndex),
        values.foldl
          (fun created value =>
            ((created.1 ++ (view.addEntry doc columns
                (view.enterValue column columns value parent created.2).1
                (view.enterValue column columns value parent created.2).2).1),
              (view.addEntry doc columns
                (view.enterValue column columns value parent created.2).1
                (view.enterValue column columns value parent created.2).2).2)) (created, s)
          = (created ++ (values.flatMap fun value =>
              view.places doc columns (view.valuePath value parent)).map (view.occurrenceAt doc),
            (values.flatMap fun value =>
              view.valueScript column (firstDescending columns) value parent
                ++ view.script doc columns (view.valuePath value parent)).foldl
              (view.place doc) s) by
      simpa using h (valuesIn doc column) [] s
    intro values
    induction values with
    | nil => intro created s; simp
    | cons value values ihv =>
      intro created s
      rw [foldl_cons, ihv, enterValue_eq column columns doc, ih]
      simp [foldl_append]

/-! ## What the steps do -/

variable (view) in
/-- What a document that is hung up changes from its parent on upward. -/
def docUp (values : ColumnValues) (parent : VirtualViewEntryData) : VirtualViewEntryData :=
  view.addDocTotals values 1 (parent.incrementDescendantCount false)

variable (view) in
/-- What a document that is taken down changes from its parent on upward. -/
def docDown (values : ColumnValues) (parent : VirtualViewEntryData) : VirtualViewEntryData :=
  (view.addDocTotals values (-1) parent).decrementDescendantCount false

variable (view) in
/-- The entry that is made of a document. -/
def docEntryData (doc : DocEntry) : VirtualViewEntryData where
  origin := doc.origin
  docId := doc.docId
  sortKey := view.docSortKey doc
  childrenComparator := view.childComparator false
  columnValues := definedValues doc.columnValues
  decryptionKeyId := doc.decryptionKeyId

variable (view) in
/-- The entry that is made for a category. -/
def categoryEntryData (itemName : JSString) (value : ColumnValue) (descending : Bool)
    (indentLevel counter : ℕ) : VirtualViewEntryData where
  origin := ORIGIN_VIRTUALVIEW
  docId := ("cat_" : JSString) ++ JSString.ofNat counter
  sortKey := categorySortKey value
  childrenComparator := view.childComparator descending
  columnValues := if value.isNullish then ∅ else (∅ : ColumnValues).set itemName value
  indentLevels := indentLevel

/-- Without total columns nothing is added up. -/
theorem changeTotalsOfParents_eq (values : ColumnValues) (sign : ℚ) (parent : EntryPath)
    (s : ViewIndex) : view.changeTotalsOfParents values sign parent s
      = s.modifyUp parent (view.addDocTotals values sign) := by
  rw [changeTotalsOfParents]
  split
  · rename_i h
    rw [List.isEmpty_iff] at h
    have hid : ∀ e, view.addDocTotals values sign e = e := fun e => by
      rw [addDocTotals, docTotalValues, h]
      rfl
    rw [ViewIndex.modifyUp, LinkedMap.modifyUp_id _ hid]
  · rfl

/-- **A document is hung up** unless its place is taken. -/
theorem place_document (doc : DocEntry) (parent : EntryPath) (s : ViewIndex) :
    view.place doc s (.document parent)
      = if s.entries.has ((view.docSortKey doc).toKey view.env :: parent) then s
        else s.hang view.env (view.docEntryData doc)
          (view.docUp (definedValues doc.columnValues)) parent := by
  rw [place, addDocument]
  simp only [addChildEntry]
  split
  · rename_i h
    split at h
    · rename_i hhas
      rw [if_pos hhas]
    · cases h
  · rename_i s' h
    split at h
    · cases h
    · rename_i hhas
      rw [if_neg hhas]
      obtain rfl := Option.some.inj h
      rw [changeTotalsOfParents_eq]
      simp only [ViewIndex.modifyUp, LinkedMap.modifyUp_modifyUp]
      rfl

/-- A category as it is listed under its generated id. -/
def categoryOccurrence (category : VirtualViewEntryData) (path : EntryPath) : Occurrence where
  path := path
  isCategory := true
  origin := category.origin
  docId := category.docId
  columnValues := category.columnValues
  decryptionKeyId := none

/-- **A category is hung up** unless there is one, and listed under its id. -/
theorem place_category (doc : DocEntry) (itemName : JSString) (value : ColumnValue)
    (descending : Bool) (indentLevel : ℕ) (parent : EntryPath) (s : ViewIndex) :
    view.place doc s (.category itemName value descending indentLevel parent)
      = if s.entries.has (view.categoryPath value parent) then s
        else
          let category := view.categoryEntryData itemName value descending indentLevel
            (s.categoryIdCounter + 4)
          { s.hang view.env category (·.incrementDescendantCount true) parent with
            entriesByDocId := s.entriesByDocId.set
              (scopedDocIdKey category.origin category.docId)
              [categoryOccurrence category (view.categoryPath value parent)]
            categoryIdCounter := s.categoryIdCounter + 4 } := by
  rw [place, enterCategory]
  change (if s.entries.has (view.categoryPath value parent) then _ else _ :
    EntryPath × ViewIndex).2 = _
  split
  · rfl
  · rename_i hfresh
    have hadd : ∀ category : VirtualViewEntryData, category.sortKey = categorySortKey value →
        addChildEntry view.env { s with categoryIdCounter := s.categoryIdCounter + 4 }
          parent category = some { s with
            entries := (s.entries.modify parent (gainChild view.env category)).set
              (view.categoryPath value parent) category
            categoryIdCounter := s.categoryIdCounter + 4 } := by
      intro category hkey
      rw [addChildEntry, hkey]
      exact if_neg hfresh
    simp only [hadd]
    rfl

/-- **An entry is taken down** when it is in the tree. -/
theorem removeOccurrence_eq (s : ViewIndex) (toCheck : List EntryPath) {o : Occurrence}
    {key : EntryKey} {parent : EntryPath} (hdoc : o.isCategory = false)
    (horigin : o.origin ≠ ORIGIN_VIRTUALVIEW) (hpath : o.path = key :: parent) :
    view.removeOccurrence (s, toCheck) o
      = match s.entries.get? (key :: parent) with
        | none => (s, toCheck)
        | some entry =>
          let s := s.unhang view.env entry (view.docDown o.columnValues) key parent
          (s, if (s.entries.get? parent).any (·.isCategory) then toCheck ++ [parent]
            else toCheck) := by
  rw [removeOccurrence]
  simp only [hdoc, horigin, hpath, Bool.false_or, decide_false, Bool.false_eq_true, if_false,
    removeChildEntry]
  cases hget : s.entries.get? (key :: parent) with
  | none => rfl
  | some entry =>
    simp only [Option.map_some, changeTotalsOfParents_eq, ViewIndex.modifyUp,
      LinkedMap.modifyUp_modifyUp]
    rfl

/-- Occurrences of the view itself, and categories, stay. -/
theorem removeOccurrence_of_kept (removing : ViewIndex × List EntryPath) {o : Occurrence}
    (h : o.isCategory = true ∨ o.origin = ORIGIN_VIRTUALVIEW) :
    view.removeOccurrence removing o = removing := by
  rw [removeOccurrence, if_pos]
  simpa using h

/-! ## The occurrences a batch takes out -/

/-- What is listed under the documents of a batch. -/
def occurrencesToRemove (change : VirtualViewDataChange) (s : ViewIndex) : List Occurrence :=
  (docIdsToRemove change).toList.flatMap fun docId =>
    (s.entriesByDocId.get? (scopedDocIdKey change.origin docId)).getD []

/-- The lists without those of some documents. -/
def unlist (origin : JSString) (docIds : List JSString)
    (lists : LinkedMap JSString (List Occurrence)) : LinkedMap JSString (List Occurrence) :=
  docIds.foldl (fun lists docId => lists.delete (scopedDocIdKey origin docId)) lists

theorem get?_unlist (origin : JSString) (docIds : List JSString)
    (lists : LinkedMap JSString (List Occurrence)) (key : JSString) :
    (unlist origin docIds lists).get? key
      = if key ∈ docIds.map (scopedDocIdKey origin) then none else lists.get? key := by
  induction docIds generalizing lists with
  | nil => simp [unlist]
  | cons docId docIds ih =>
    rw [unlist, foldl_cons, ← unlist, ih, get?_delete]
    simp only [map_cons, mem_cons]
    by_cases hhere : key = scopedDocIdKey origin docId <;> simp [hhere]

/-- Taking an occurrence out does not read the lists. -/
theorem removeOccurrence_relist (s : ViewIndex) (lists : LinkedMap JSString (List Occurrence))
    (toCheck : List EntryPath) (o : Occurrence) :
    view.removeOccurrence ({ s with entriesByDocId := lists }, toCheck) o
      = ({ (view.removeOccurrence (s, toCheck) o).1 with entriesByDocId := lists },
          (view.removeOccurrence (s, toCheck) o).2) := by
  rw [removeOccurrence, removeOccurrence]
  split
  · rfl
  · cases o.path with
    | nil => rfl
    | cons key parent =>
      simp only [removeChildEntry]
      cases s.entries.get? (key :: parent) with
      | none => rfl
      | some entry =>
        simp only [Option.map_some, changeTotalsOfParents_eq]
        rfl

theorem foldl_removeOccurrence_relist (l : List Occurrence) (s : ViewIndex)
    (lists : LinkedMap JSString (List Occurrence)) (toCheck : List EntryPath) :
    l.foldl view.removeOccurrence ({ s with entriesByDocId := lists }, toCheck)
      = ({ (l.foldl view.removeOccurrence (s, toCheck)).1 with entriesByDocId := lists },
          (l.foldl view.removeOccurrence (s, toCheck)).2) := by
  induction l generalizing s toCheck with
  | nil => rfl
  | cons o l ih =>
    rw [foldl_cons, foldl_cons, removeOccurrence_relist]
    exact ih _ _

theorem removeDoc_relist (origin docId : JSString) (s : ViewIndex)
    (lists : LinkedMap JSString (List Occurrence)) (toCheck : List EntryPath) :
    view.removeDoc origin ({ s with entriesByDocId := lists }, toCheck) docId
      = (let r := ((lists.get? (scopedDocIdKey origin docId)).getD []).foldl view.removeOccurrence
            (s, toCheck)
         ({ r.1 with entriesByDocId := lists.delete (scopedDocIdKey origin docId) }, r.2)) := by
  rw [removeDoc]
  cases hget : lists.get? (scopedDocIdKey origin docId) with
  | none =>
    rw [delete_of_notMem _ (notMem_keys_iff.mpr hget)]
    rfl
  | some entries =>
    simp only [foldl_removeOccurrence_relist, Option.getD_some]

/-- **The removals of a batch** take out what was listed under its documents, and the lists. -/
theorem applyRemovals_eq (change : VirtualViewDataChange) (s : ViewIndex) :
    view.applyRemovals change s
      = (let r := (occurrencesToRemove change s).foldl view.removeOccurrence (s, [])
         ({ r.1 with
            entriesByDocId :=
              unlist change.origin (docIdsToRemove change).toList s.entriesByDocId }, r.2)) := by
  suffices h : ∀ (docIds : List JSString) (lists : LinkedMap JSString (List Occurrence))
      (t : ViewIndex) (toCheck : List EntryPath), docIds.Nodup →
      docIds.foldl (view.removeDoc change.origin) ({ t with entriesByDocId := lists }, toCheck)
        = (let r := (docIds.flatMap fun docId =>
              (lists.get? (scopedDocIdKey change.origin docId)).getD []).foldl
              view.removeOccurrence (t, toCheck)
           ({ r.1 with entriesByDocId := unlist change.origin docIds lists }, r.2)) from
    h _ s.entriesByDocId s [] (docIdsToRemove change).nodup
  intro docIds
  induction docIds with
  | nil => intro lists t toCheck _; rfl
  | cons docId docIds ih =>
    intro lists t toCheck hnd
    obtain ⟨hnot, hnd'⟩ := nodup_cons.mp hnd
    rw [foldl_cons, removeDoc_relist, ih _ _ _ hnd', flatMap_cons, foldl_append]
    -- the lists of the other documents are not touched
    have hlists : (docIds.flatMap fun other =>
          ((lists.delete (scopedDocIdKey change.origin docId)).get?
            (scopedDocIdKey change.origin other)).getD [])
        = docIds.flatMap fun other =>
          (lists.get? (scopedDocIdKey change.origin other)).getD [] := by
      refine flatMap_congr fun other hother => ?_
      rw [get?_delete_of_ne]
      intro heq
      exact hnot (scopedDocIdKey_inj heq ▸ hother)
    rw [hlists]
    rfl

/-! ## The documents a batch adds -/

variable (view) in
/-- The accepted additions of a batch. -/
def acceptedDocs (change : VirtualViewDataChange) : List DocEntry :=
  (change.additions.toList.filter fun e => view.isAccepted change.origin e.1 e.2.values).map
    fun e => ⟨change.origin, e.1, e.2.values, e.2.decryptionKeyId⟩

variable (view) in
/-- Where a document hangs in the view. -/
abbrev docPlaces (doc : DocEntry) : List EntryPath := view.places doc view.categoryColumns []

variable (view) in
/-- The steps that place a document in the view. -/
abbrev docScript (doc : DocEntry) : List Placement := view.script doc view.categoryColumns []

variable (view) in
/-- Place a document and list it. -/
def addOne (s : ViewIndex) (doc : DocEntry) : ViewIndex :=
  let s := (view.docScript doc).foldl (view.place doc) s
  { s with
    entriesByDocId := s.entriesByDocId.set (scopedDocIdKey doc.origin doc.docId)
      ((view.docPlaces doc).map (view.occurrenceAt doc)) }

theorem categoryValues_ne_nil (v : ColumnValue) : categoryValues v ≠ [] := by
  cases v with
  | array items =>
    cases items with
    | nil => simp [categoryValues]
    | cons item items => simp [categoryValues]
  | _ => simp only [categoryValues]; split <;> simp

theorem places_ne_nil (doc : DocEntry) (columns : List VirtualViewColumn) (parent : EntryPath) :
    view.places doc columns parent ≠ [] := by
  induction columns generalizing parent with
  | nil => simp [places]
  | cons column columns ih =>
    obtain ⟨value, hvalue⟩ := exists_mem_of_ne_nil _
      (categoryValues_ne_nil ((doc.columnValues.get? column.name).getD .undefined))
    obtain ⟨place, hplace⟩ := exists_mem_of_ne_nil _ (ih (view.valuePath value parent))
    exact ne_nil_of_mem (mem_flatMap.mpr ⟨value, hvalue, hplace⟩)

/-- **The additions of a batch** place the accepted documents, one after another. -/
theorem applyAdditions_eq (change : VirtualViewDataChange) (s : ViewIndex) :
    view.applyAdditions change s = (view.acceptedDocs change).foldl view.addOne s := by
  rw [applyAdditions, acceptedDocs]
  generalize change.additions.toList = additions
  induction additions generalizing s with
  | nil => rfl
  | cons addition additions ih =>
    obtain ⟨docId, entryData⟩ := addition
    rw [foldl_cons, addDoc, filter_cons]
    split
    · have hne : (view.docPlaces ⟨change.origin, docId, entryData.values,
          entryData.decryptionKeyId⟩).map (view.occurrenceAt ⟨change.origin, docId,
          entryData.values, entryData.decryptionKeyId⟩) ≠ [] := by
        rw [ne_eq, map_eq_nil_iff]
        exact places_ne_nil _ _ _
      simp only [map_cons, foldl_cons, addEntry_eq_foldl_script, List.isEmpty_iff, hne, if_false]
      exact ih _
    · exact ih s

/-! ## What the totals change -/

theorem computeTotalColumnValues_eq (env : Runtime) (columns : List VirtualViewColumn)
    (e : VirtualViewEntryData) : e.computeTotalColumnValues env columns
      = { e with columnValues := (e.computeTotalColumnValues env columns).columnValues } := by
  induction columns generalizing e with
  | nil => rfl
  | cons column columns ih =>
    rw [computeTotalColumnValues, foldl_cons]
    exact ih (e.setColumnValue column.name (e.totalColumnValue env column))

theorem foldl_addTotalValue_eq (env : Runtime) (sign : ℚ) (totals : List (JSString × ℚ))
    (e : VirtualViewEntryData) :
    totals.foldl (fun parent t => parent.addTotalValue env t.1 (sign * t.2)) e
      = { e with totalValues := (totals.foldl
          (fun parent t => parent.addTotalValue env t.1 (sign * t.2)) e).totalValues } := by
  induction totals generalizing e with
  | nil => rfl
  | cons t totals ih =>
    rw [foldl_cons]
    exact ih (e.addTotalValue env t.1 (sign * t.2))

/-- Totals touch nothing but totals and the columns that show them. -/
theorem addDocTotals_eq (values : ColumnValues) (sign : ℚ) (e : VirtualViewEntryData) :
    view.addDocTotals values sign e
      = { e with
          columnValues := (view.addDocTotals values sign e).columnValues
          totalValues := (view.addDocTotals values sign e).totalValues } := by
  rw [addDocTotals, computeTotalColumnValues_eq, foldl_addTotalValue_eq]

end VirtualView

/-! ## What an entry is -/

/-- Two states of one entry: nothing that it was made with has changed. -/
structure SameEntry (e e' : VirtualViewEntryData) : Prop where
  origin : e'.origin = e.origin
  docId : e'.docId = e.docId
  sortKey : e'.sortKey = e.sortKey
  childrenComparator : e'.childrenComparator = e.childrenComparator
  decryptionKeyId : e'.decryptionKeyId = e.decryptionKeyId

namespace SameEntry

theorem refl (e : VirtualViewEntryData) : SameEntry e e := ⟨rfl, rfl, rfl, rfl, rfl⟩

theorem trans {e e' e'' : VirtualViewEntryData} (h : SameEntry e e') (h' : SameEntry e' e'') :
    SameEntry e e'' :=
  ⟨h'.origin.trans h.origin, h'.docId.trans h.docId, h'.sortKey.trans h.sortKey,
    h'.childrenComparator.trans h.childrenComparator, h'.decryptionKeyId.trans h.decryptionKeyId⟩

theorem isCategory {e e' : VirtualViewEntryData} (h : SameEntry e e') :
    e'.isCategory = e.isCategory := congrArg ViewEntrySortKey.isCategory h.sortKey

theorem gainChild (env : Runtime) (child e : VirtualViewEntryData) :
    SameEntry e (gainChild env child e) := ⟨rfl, rfl, rfl, rfl, rfl⟩

theorem loseChild (env : Runtime) (child e : VirtualViewEntryData) :
    SameEntry e (loseChild env child e) := ⟨rfl, rfl, rfl, rfl, rfl⟩

theorem incrementDescendantCount (isCategory : Bool) (e : VirtualViewEntryData) :
    SameEntry e (e.incrementDescendantCount isCategory) := ⟨rfl, rfl, rfl, rfl, rfl⟩

theorem docUp (view : VirtualView) (values : ColumnValues) (e : VirtualViewEntryData) :
    SameEntry e (view.docUp values e) := by
  rw [VirtualView.docUp, VirtualView.addDocTotals_eq]
  exact ⟨rfl, rfl, rfl, rfl, rfl⟩

theorem docDown (view : VirtualView) (values : ColumnValues) (e : VirtualViewEntryData) :
    SameEntry e (view.docDown values e) := by
  rw [VirtualView.docDown, VirtualView.addDocTotals_eq]
  exact ⟨rfl, rfl, rfl, rfl, rfl⟩

end SameEntry

end MindooDB
