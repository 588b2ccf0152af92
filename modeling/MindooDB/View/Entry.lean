import MindooDB.Lib.CompareSort
import MindooDB.Lib.PathMap
import MindooDB.View.Types

/-!
# View/Entry — the entries of a view

`core/indexing/virtualviews/VirtualViewEntryData.ts`, `VirtualViewColumn.ts` and the fields of
`VirtualView.ts`.  An entry is named by the keys of itself and of the entries above it, the root
being `[]`, so its parent and its children are found by their names; the `entries` of a view are
those that hang in its tree.  `entriesByDocId` also lists document entries that were made but not
hung up, because their place was taken; of those only what a removal reads is kept, an
`Occurrence`.

The display properties of columns are left out, and so are value functions, which the view itself
never calls.
-/

namespace MindooDB

structure VirtualViewColumn where
  name : JSString
  isCategory : Bool
  sorting : ColumnSorting
  totalMode : TotalMode
  category_sorted : isCategory = true → sorting ≠ .NONE

/-- `Record<string, unknown>`. -/
abbrev ColumnValues := LinkedMap JSString ColumnValue

/-- The keys of an entry and of those above it. -/
abbrev EntryPath := List EntryKey

structure VirtualViewEntryData where
  origin : JSString
  docId : JSString
  sortKey : ViewEntrySortKey
  childrenComparator : ViewEntrySortKeyComparator
  columnValues : ColumnValues := ∅
  decryptionKeyId : Option JSString := none
  sortedChildrenCache : Option (List ViewEntrySortKey) := none
  siblingIndex : ℕ := 0
  indentLevels : ℕ := 0
  position : Option (List ℕ) := none
  positionStr : Option JSString := none
  childCount : ℤ := 0
  childCategoryCount : ℤ := 0
  childDocumentCount : ℤ := 0
  descendantCount : ℤ := 0
  descendantDocumentCount : ℤ := 0
  descendantCategoryCount : ℤ := 0
  totalValues : LinkedMap JSString FiniteNumber := ∅

/-- An entry as it is listed under its document. -/
structure Occurrence where
  path : EntryPath
  isCategory : Bool
  origin : JSString
  docId : JSString
  columnValues : ColumnValues
  decryptionKeyId : Option JSString

/-- **What a view holds.** -/
structure ViewIndex where
  entries : LinkedMap EntryPath VirtualViewEntryData
  entriesByDocId : LinkedMap JSString (List Occurrence) := ∅
  categoryIdCounter : ℕ
  pendingSiblingIndexFlush : LinkedSet EntryPath := ∅

namespace VirtualViewEntryData

variable (entry : VirtualViewEntryData)

def isCategory : Bool := entry.sortKey.isCategory

/-! ## Column values -/

/-- The values set, `undefined` ones left out. -/
def definedValues (values : ColumnValues) : ColumnValues :=
  ⟨values.toList.filter fun e => !(e.2 matches .undefined),
    values.nodupKeys.sublist (List.filter_sublist.map _)⟩

/-- `setColumnValue`; `none` is `undefined`. -/
def setColumnValue (name : JSString) (value : Option ColumnValue) : VirtualViewEntryData :=
  { entry with columnValues := match value with
    | none => entry.columnValues.delete name
    | some v => entry.columnValues.set name v }

/-- `getAsNumber(name, null)`. -/
def getAsNumber (env : Runtime) (values : ColumnValues) (name : JSString) : Option FiniteNumber :=
  match (values.get? name).getD .undefined with
  | .null => none
  | .undefined => none
  | .number n => some n
  | v => env.parseFloat (env.toText v)

/-! ## Counts -/

def incrementDescendantCount (isCategory : Bool) : VirtualViewEntryData :=
  { entry with
    descendantCount := entry.descendantCount + 1
    descendantCategoryCount := entry.descendantCategoryCount + if isCategory then 1 else 0
    descendantDocumentCount := entry.descendantDocumentCount + if isCategory then 0 else 1 }

def decrementDescendantCount (isCategory : Bool) : VirtualViewEntryData :=
  { entry with
    descendantCount := entry.descendantCount - 1
    descendantCategoryCount := entry.descendantCategoryCount - if isCategory then 1 else 0
    descendantDocumentCount := entry.descendantDocumentCount - if isCategory then 0 else 1 }

/-- The counts of a parent that gains a child (`delta` is 1) or loses one. -/
def changeChildCounts (isCategory : Bool) (delta : ℤ) : VirtualViewEntryData :=
  { entry with
    childCount := entry.childCount + delta
    childCategoryCount := entry.childCategoryCount + if isCategory then delta else 0
    childDocumentCount := entry.childDocumentCount + if isCategory then 0 else delta }

/-! ## Totals -/

def addTotalValue (env : Runtime) (itemName : JSString) (value : FiniteNumber) : VirtualViewEntryData :=
  let key := env.toLowerCase itemName
  { entry with totalValues :=
      entry.totalValues.set key ((entry.totalValues.get? key).getD 0 + value) }

def getTotalValue (env : Runtime) (itemName : JSString) : Option FiniteNumber :=
  entry.totalValues.get? (env.toLowerCase itemName)

/-- What `computeTotalColumnValues` shows for one column. -/
def totalColumnValue (env : Runtime) (totalColumn : VirtualViewColumn) : Option ColumnValue :=
  (entry.getTotalValue env totalColumn.name).bind fun totalValue =>
    if totalColumn.totalMode = .AVERAGE then
      if entry.descendantDocumentCount = 0 then none
      else some (.number (totalValue / entry.descendantDocumentCount))
    else some (.number totalValue)

/-- The totals, or averages, of an entry. -/
def computeTotalColumnValues (env : Runtime) (totalColumns : List VirtualViewColumn) :
    VirtualViewEntryData :=
  totalColumns.foldl
    (fun entry column => entry.setColumnValue column.name (entry.totalColumnValue env column)) entry

/-! ## Positions -/

def setSiblingIndex (index : ℕ) : VirtualViewEntryData :=
  if entry.siblingIndex ≠ index then
    { entry with siblingIndex := index, position := none, positionStr := none }
  else entry

end VirtualViewEntryData

/-! ## The sorted children -/

section SortedChildren

variable (env : Runtime) (cmp : ViewEntrySortKeyComparator)

/-- The index before which an entry is spliced into the cache. -/
def findSortedInsertIndex (sorted : List ViewEntrySortKey) (key : ViewEntrySortKey) : ℕ :=
  partitionPoint (fun mid => sorted[mid]?.any fun k => cmp.compare env k key ≤ 0)
    sorted.length 0 sorted.length

/-- The index of an entry in the cache; `none` is `-1`. -/
def findSortedEntryIndex (sorted : List ViewEntrySortKey) (key : ViewEntrySortKey) : Option ℕ :=
  let lo := partitionPoint (fun mid => sorted[mid]?.any fun k => cmp.compare env k key < 0)
    sorted.length 0 sorted.length
  (((sorted.drop lo).takeWhile fun k => cmp.compare env k key = 0).findIdx?
    fun k => k.toKey env = key.toKey env).map (· + lo)

def spliceIn (sorted : List ViewEntrySortKey) (key : ViewEntrySortKey) : List ViewEntrySortKey :=
  sorted.insertIdx (findSortedInsertIndex env cmp sorted key) key

/-- `none` is the cache thrown away. -/
def spliceOut (sorted : List ViewEntrySortKey) (key : ViewEntrySortKey) :
    Option (List ViewEntrySortKey) :=
  (findSortedEntryIndex env cmp sorted key).map sorted.eraseIdx

end SortedChildren

namespace ViewIndex

variable (env : Runtime) (s : ViewIndex)

def modify (path : EntryPath) (f : VirtualViewEntryData → VirtualViewEntryData) : ViewIndex :=
  { s with entries := s.entries.modify path f }

/-- `while (parent !== null) { f(parent); parent = parent.getParent(); }`. -/
def modifyUp (path : EntryPath) (f : VirtualViewEntryData → VirtualViewEntryData) : ViewIndex :=
  { s with entries := s.entries.modifyUp f path }

/-- Its children are numbered again later. -/
def markEntryForSiblingIndexFlush (path : EntryPath) : ViewIndex :=
  { s with pendingSiblingIndexFlush := s.pendingSiblingIndexFlush.add path }

def getChildEntries (path : EntryPath) : List ViewEntrySortKey :=
  match s.entries.get? path with
  | none => []
  | some entry =>
    entry.sortedChildrenCache.getD
      (sortBy (entry.childrenComparator.compare env)
        (s.entries.childValues VirtualViewEntryData.sortKey path))

/-- What a parent changes when a child is hung up below it. -/
def gainChild (child : VirtualViewEntryData) (parent : VirtualViewEntryData) :
    VirtualViewEntryData :=
  { parent.changeChildCounts child.isCategory 1 with
    sortedChildrenCache := parent.sortedChildrenCache.map fun sorted =>
      spliceIn env parent.childrenComparator sorted child.sortKey }

/-- What a parent changes when a child is taken away. -/
def loseChild (child : VirtualViewEntryData) (parent : VirtualViewEntryData) :
    VirtualViewEntryData :=
  { parent.changeChildCounts child.isCategory (-1) with
    sortedChildrenCache := parent.sortedChildrenCache.bind fun sorted =>
      spliceOut env parent.childrenComparator sorted child.sortKey }

/-- `none` when there is an entry of that key already. -/
def addChildEntry (parent : EntryPath) (entry : VirtualViewEntryData) : Option ViewIndex :=
  let path := entry.sortKey.toKey env :: parent
  if s.entries.has path then none
  else some { s with
    entries := (s.entries.modify parent (gainChild env entry)).set path entry }

/-- `none` when there is no entry of that key. -/
def removeChildEntry (key : EntryKey) (parent : EntryPath) : Option ViewIndex :=
  (s.entries.get? (key :: parent)).map fun entry =>
    { s with entries := (s.entries.delete (key :: parent)).modify parent (loseChild env entry) }

end ViewIndex

end MindooDB
