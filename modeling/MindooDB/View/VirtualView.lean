import MindooDB.View.Entry

/-!
# View/VirtualView — applying changes to a view

`core/indexing/virtualviews/VirtualView.ts`, `VirtualViewDataChange.ts`.  A batch takes the changed
documents out, hangs the new ones up below their categories, drops the categories left empty and
renumbers the siblings where something changed.

The root is there from the start, where the code makes it on first use.  The caches on disk, the
live updates and the time stamps are left out.
-/

namespace MindooDB

/-- What a view is built from; `isAccepted` is what a subclass may override. -/
structure VirtualView where
  columns : List VirtualViewColumn
  categorizationStyle : CategorizationStyle
  isAccepted : JSString → JSString → ColumnValues → Bool
  env : Runtime

structure EntryData where
  values : ColumnValues
  decryptionKeyId : Option JSString

structure VirtualViewDataChange where
  origin : JSString
  removals : LinkedSet JSString := ∅
  additions : LinkedMap JSString EntryData := ∅

namespace VirtualViewDataChange

variable (change : VirtualViewDataChange)

def addEntry (docId : JSString) (data : EntryData) : VirtualViewDataChange :=
  { change with additions := change.additions.set docId data }

def removeEntry (docId : JSString) : VirtualViewDataChange :=
  { change with removals := change.removals.add docId }

def hasChanges : Bool :=
  change.removals.size ≠ 0 || change.additions.size ≠ 0

end VirtualViewDataChange

namespace VirtualView

variable (view : VirtualView)

/-! ## The constructor -/

def categoryColumns : List VirtualViewColumn := view.columns.filter (·.isCategory)

def sortColumns : List VirtualViewColumn :=
  view.columns.filter fun column => !column.isCategory && column.sorting ≠ .NONE

def totalColumns : List VirtualViewColumn := view.columns.filter (·.totalMode ≠ .NONE)

def docOrderDescending : List Bool :=
  match view.sortColumns with
  | [] => [false]
  | sortColumns => sortColumns.map (·.sorting = .DESCENDING)

def childComparator (categoryOrderDescending : Bool) : ViewEntrySortKeyComparator where
  categoriesOnTopOfDocuments := view.categorizationStyle = .CATEGORY_THEN_DOCUMENT
  categoryOrderDescending := categoryOrderDescending
  docOrderPerColumnDescending := view.docOrderDescending

/-- Whether the first of the columns sorts descending; without one it does not. -/
def firstDescending (columns : List VirtualViewColumn) : Bool :=
  columns.head?.any (·.sorting = .DESCENDING)

/-- The view before any change, with the root that `getRoot` makes. -/
def initial : ViewIndex where
  entries := (∅ : LinkedMap EntryPath VirtualViewEntryData).set []
    { origin := ORIGIN_VIRTUALVIEW
      docId := "cat_8"
      sortKey := ⟨true, [], ORIGIN_VIRTUALVIEW, "root"⟩
      childrenComparator := view.childComparator (firstDescending view.categoryColumns) }
  categoryIdCounter := 8

/-! ## Totals of the parents -/

/-- The numbers a document brings to the total columns. -/
def docTotalValues (values : ColumnValues) : LinkedMap JSString ℚ :=
  view.totalColumns.foldl
    (fun totals column =>
      match VirtualViewEntryData.getAsNumber view.env values column.name with
      | none => totals
      | some docVal => totals.set column.name docVal) ∅

/-- What a parent does with the numbers of a document below it, `sign` being −1 when it goes. -/
def addDocTotals (values : ColumnValues) (sign : ℚ) (parent : VirtualViewEntryData) :
    VirtualViewEntryData :=
  ((view.docTotalValues values).toList.foldl
    (fun parent e => parent.addTotalValue view.env e.1 (sign * e.2)) parent).computeTotalColumnValues
      view.env view.totalColumns

def changeTotalsOfParents (values : ColumnValues) (sign : ℚ) (parent : EntryPath)
    (s : ViewIndex) : ViewIndex :=
  if view.totalColumns.isEmpty then s else s.modifyUp parent (view.addDocTotals values sign)

/-! ## Adding a document -/

/-- A document as `addEntry` is given it. -/
structure DocEntry where
  origin : JSString
  docId : JSString
  columnValues : ColumnValues
  decryptionKeyId : Option JSString

/-- The first of an array; what is no array is itself. -/
def getFirstListValue : ColumnValue → ColumnValue
  | .array items => items.head?.getD .null
  | v => v

/-- How a document is sorted. -/
def docSortKey (doc : DocEntry) : ViewEntrySortKey where
  isCategory := false
  values := view.sortColumns.map fun column =>
    getFirstListValue ((doc.columnValues.get? column.name).getD .undefined)
  origin := doc.origin
  docId := doc.docId

/-- The categories a column puts a document in. -/
def categoryValues : ColumnValue → List ColumnValue
  | .array [] => [.null]
  | .array items => items
  | v => if v.sortsAsNull then [.null] else [v]

/-- `addEntry` with no category column left. -/
def addDocument (doc : DocEntry) (parent : EntryPath) (s : ViewIndex) :
    List Occurrence × ViewIndex :=
  let sortKey := view.docSortKey doc
  let columnValues := VirtualViewEntryData.definedValues doc.columnValues
  let newDocEntry : VirtualViewEntryData :=
    { origin := doc.origin
      docId := doc.docId
      sortKey := sortKey
      childrenComparator := view.childComparator false
      columnValues := columnValues
      decryptionKeyId := doc.decryptionKeyId }
  let s := match s.addChildEntry view.env parent newDocEntry with
    | none => s
    | some s =>
      (view.changeTotalsOfParents columnValues 1 parent
        (s.modifyUp parent (·.incrementDescendantCount false))).markEntryForSiblingIndexFlush parent
  ([{ path := sortKey.toKey view.env :: parent
      isCategory := false
      origin := doc.origin
      docId := doc.docId
      columnValues := columnValues
      decryptionKeyId := doc.decryptionKeyId }], s)

/-- The category of a value below `parent`, made when there is none. -/
def enterCategory (itemName : JSString) (value : ColumnValue) (childCategoryDescending : Bool)
    (indentLevel : ℕ) (parent : EntryPath) (s : ViewIndex) : EntryPath × ViewIndex :=
  let sortKey := categorySortKey value
  let path := sortKey.toKey view.env :: parent
  if s.entries.has path then (path, s)
  else
    let counter := s.categoryIdCounter + 4
    let docId := ("cat_" : JSString) ++ JSString.ofNat counter
    let s := { s with categoryIdCounter := counter }
    let columnValues : ColumnValues :=
      if value.isNullish then ∅ else (∅ : ColumnValues).set itemName value
    let category : VirtualViewEntryData :=
      { origin := ORIGIN_VIRTUALVIEW
        docId := docId
        sortKey := sortKey
        childrenComparator := view.childComparator childCategoryDescending
        columnValues := columnValues
        indentLevels := indentLevel }
    let s := match s.addChildEntry view.env parent category with
      | none => s
      | some s => s.modifyUp parent (·.incrementDescendantCount true)
    let occurrence : Occurrence :=
      { path := path
        isCategory := true
        origin := ORIGIN_VIRTUALVIEW
        docId := docId
        columnValues := columnValues
        decryptionKeyId := none }
    let s := { s with entriesByDocId :=
      s.entriesByDocId.set (scopedDocIdKey ORIGIN_VIRTUALVIEW docId) [occurrence] }
    (path, s.markEntryForSiblingIndexFlush parent)

/-- The categories of the parts of a value, one below the other, from the `indentLevel`-th on. -/
def enterParts (column : VirtualViewColumn) (nextDescending : Bool) :
    List JSString → ℕ → EntryPath → ViewIndex → EntryPath × ViewIndex
  | [], _, parent, s => (parent, s)
  | subCat :: parts, indentLevel, parent, s =>
    let value := if subCat.isEmpty then ColumnValue.null else .string subCat
    let childCategoryDescending :=
      if parts.isEmpty then nextDescending else column.sorting = .DESCENDING
    let (category, s) :=
      view.enterCategory column.name value childCategoryDescending indentLevel parent s
    enterParts column nextDescending parts (indentLevel + 1) category s

/-- The category below which a value of a column puts a document. -/
def enterValue (column : VirtualViewColumn) (remainingColumns : List VirtualViewColumn)
    (value : ColumnValue) (parent : EntryPath) (s : ViewIndex) : EntryPath × ViewIndex :=
  let nextDescending := firstDescending remainingColumns
  match value with
  | .string categoryValue =>
    if categoryValue.includes "\\" then
      view.enterParts column nextDescending (categoryValue.split '\\') 0 parent s
    else view.enterCategory column.name value nextDescending 0 parent s
  | _ => view.enterCategory column.name value nextDescending 0 parent s

def addEntry (doc : DocEntry) :
    List VirtualViewColumn → EntryPath → ViewIndex → List Occurrence × ViewIndex
  | [], targetParent, s => view.addDocument doc targetParent s
  | column :: remainingColumns, targetParent, s =>
    (categoryValues ((doc.columnValues.get? column.name).getD .undefined)).foldl
      (fun created value =>
        let (category, s) := view.enterValue column remainingColumns value targetParent created.2
        let (addedEntries, s) := addEntry doc remainingColumns category s
        (created.1 ++ addedEntries, s))
      ([], s)

/-! ## Applying a batch -/

/-- Take one entry of a document out; the parents that lost one are collected. -/
def removeOccurrence (removing : ViewIndex × List EntryPath) (entry : Occurrence) :
    ViewIndex × List EntryPath :=
  if entry.isCategory || entry.origin = ORIGIN_VIRTUALVIEW then removing
  else
    match entry.path with
    | [] => removing
    | key :: parent =>
      match removing.1.removeChildEntry view.env key parent with
      | none => removing
      | some s =>
        let s := view.changeTotalsOfParents entry.columnValues (-1) parent s
        let s := (s.modifyUp parent (·.decrementDescendantCount false))
        let s := s.markEntryForSiblingIndexFlush parent
        (s, if (s.entries.get? parent).any (·.isCategory) then removing.2 ++ [parent]
          else removing.2)

/-- Take a document out, wherever it is listed. -/
def removeDoc (origin : JSString) (removing : ViewIndex × List EntryPath) (docId : JSString) :
    ViewIndex × List EntryPath :=
  let scopedKey := scopedDocIdKey origin docId
  match removing.1.entriesByDocId.get? scopedKey with
  | none => removing
  | some entries =>
    let (s, categoryEntriesToCheck) := entries.foldl view.removeOccurrence removing
    ({ s with entriesByDocId := s.entriesByDocId.delete scopedKey }, categoryEntriesToCheck)

def addDoc (origin : JSString) (s : ViewIndex) (addition : JSString × EntryData) : ViewIndex :=
  let (docId, entryData) := addition
  if view.isAccepted origin docId entryData.values then
    let (addedEntries, s) := view.addEntry
      ⟨origin, docId, entryData.values, entryData.decryptionKeyId⟩ view.categoryColumns [] s
    if addedEntries.isEmpty then s
    else { s with entriesByDocId :=
      s.entriesByDocId.set (scopedDocIdKey origin docId) addedEntries }
  else s

/-- Take a category out, and its parent when that is left empty. -/
def removeCategoryFromParent : EntryPath → ViewIndex → ViewIndex
  | [], s => s
  | key :: parent, s =>
    match s.entries.get? (key :: parent), s.removeChildEntry view.env key parent with
    | some entry, some removed =>
      let s := removed.markEntryForSiblingIndexFlush parent
      let s := { s with entriesByDocId :=
        s.entriesByDocId.delete (scopedDocIdKey entry.origin entry.docId) }
      if (s.entries.get? parent).any fun p => p.isCategory && p.childCount = 0 then
        removeCategoryFromParent parent s
      else s
    | _, _ => s

/-- An entry that lost a document is checked; one that hangs in the tree no more has no children
and goes unnoticed. -/
def checkCategory (s : ViewIndex) (path : EntryPath) : ViewIndex :=
  if (s.entries.get? path).any (·.childCount = 0) then view.removeCategoryFromParent path s else s

/-- Number the children of an entry. -/
def flushSiblingIndexes (s : ViewIndex) (path : EntryPath) : ViewIndex :=
  let children := s.getChildEntries view.env path
  let s := s.modify path fun entry => { entry with sortedChildrenCache := some children }
  children.zipIdx.foldl
    (fun s child => s.modify (child.1.toKey view.env :: path) (·.setSiblingIndex (child.2 + 1))) s

def processPendingSiblingIndexUpdates (s : ViewIndex) : ViewIndex :=
  { s.pendingSiblingIndexFlush.toList.foldl view.flushSiblingIndexes s with
    pendingSiblingIndexFlush := ∅ }

/-- The documents a batch takes out: those removed and those replaced. -/
def docIdsToRemove (change : VirtualViewDataChange) : LinkedSet JSString :=
  change.removals.addAll change.additions.keys

/-- The removals of a batch. -/
def applyRemovals (change : VirtualViewDataChange) (s : ViewIndex) : ViewIndex × List EntryPath :=
  (docIdsToRemove change).toList.foldl (view.removeDoc change.origin) (s, [])

/-- The documents that come. -/
def applyAdditions (change : VirtualViewDataChange) (s : ViewIndex) : ViewIndex :=
  change.additions.toList.foldl (view.addDoc change.origin) s

/-- **One batch**: removals, then additions. -/
def applyChanges (s : ViewIndex) (change : VirtualViewDataChange) : ViewIndex :=
  let (s, categoryEntriesToCheck) := view.applyRemovals change s
  let s := view.applyAdditions change s
  view.processPendingSiblingIndexUpdates (categoryEntriesToCheck.foldl view.checkCategory s)

/-- The batches a view was given, one after another. -/
def run (changes : List VirtualViewDataChange) : ViewIndex :=
  changes.foldl view.applyChanges view.initial

/-! ## Purging by key -/

/-- The documents of a key go. -/
def purgeEntriesByDecryptionKeyId (origin decryptionKeyId : JSString) (s : ViewIndex) :
    ViewIndex :=
  let docIds := s.entriesByDocId.toList.filterMap fun e =>
    match parseScopedDocIdKey e.1 with
    | none => none
    | some (parsedOrigin, docId) =>
      if parsedOrigin = origin ∧ e.2.any fun entry =>
          !entry.isCategory && entry.decryptionKeyId = some decryptionKeyId then some docId
      else none
  if docIds.isEmpty then s
  else view.applyChanges s { origin := origin, removals := LinkedSet.ofList docIds }

end VirtualView

namespace ViewIndex

variable (s : ViewIndex)

/-! ## Reading a position -/

/-- The sibling indexes from below the root down to an entry. -/
def siblingIndexes : EntryPath → List ℕ
  | [] => []
  | key :: parent =>
    siblingIndexes parent ++ [((s.entries.get? (key :: parent)).map (·.siblingIndex)).getD 0]

/-- What `getPosition` returns for an entry. -/
def getPosition (path : EntryPath) : List ℕ :=
  ((s.entries.get? path).bind (·.position)).getD
    (match path with
    | [] => [0]
    | _ => s.siblingIndexes path)

def positionText (position : List ℕ) : JSString :=
  match position.map JSString.ofNat with
  | [] => ""
  | first :: rest => rest.foldl (fun text part => text ++ (".") ++ part) first

/-- What `getPositionStr` returns for an entry. -/
def getPositionStr (path : EntryPath) : JSString :=
  ((s.entries.get? path).bind (·.positionStr)).getD (positionText (s.getPosition path))

/-- Reading a position remembers it. -/
def readPosition (path : EntryPath) : ViewIndex :=
  s.modify path fun entry => { entry with position := some (s.getPosition path) }

/-- The text is made from the position, when it is not remembered itself. -/
def readPositionStr (path : EntryPath) : ViewIndex :=
  if ((s.entries.get? path).bind (·.positionStr)).isSome then s
  else (s.readPosition path).modify path fun entry =>
    { entry with positionStr := some (s.getPositionStr path) }

end ViewIndex

end MindooDB
