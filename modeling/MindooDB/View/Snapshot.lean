import MindooDB.View.VirtualView

/-!
# View/Snapshot — a view in its cache and back

`exportCacheState` and `serializeNode`, `restoreFromTreeSnapshot` and `deserializeNode` of
`core/indexing/virtualviews/VirtualView.ts`, with `_addRestoredChild`, `_restoreCounts` and
`_restoreTotalValues` of `VirtualViewEntryData.ts`, for a snapshot that a view has written itself.
Between the two it is text, and what is read is what `JSON.parse` makes of it; a total that is
infinite would come back as `null`, and is left out.

The states of the providers are left out: they are not about the tree.
-/

namespace MindooDB

/-! ## Values as text and back -/

namespace ColumnValue

mutual

/-- What `JSON.parse` makes of the text of a value inside an array. -/
def jsonCopy (toISOString : ℤ → JSString) : ColumnValue → ColumnValue
  | undefined => null
  | null => null
  | bool b => bool b
  | number n => number n
  | string s => string s
  | date time => string (toISOString time)
  | array items => array (jsonCopyItems toISOString items)
  | object fields => object (jsonCopyFields toISOString fields)

def jsonCopyItems (toISOString : ℤ → JSString) : List ColumnValue → List ColumnValue
  | [] => []
  | v :: items => jsonCopy toISOString v :: jsonCopyItems toISOString items

/-- A field that is `undefined` is left out. -/
def jsonCopyFields (toISOString : ℤ → JSString) :
    List (JSString × ColumnValue) → List (JSString × ColumnValue)
  | [] => []
  | (_, undefined) :: fields => jsonCopyFields toISOString fields
  | (k, v) :: fields => (k, jsonCopy toISOString v) :: jsonCopyFields toISOString fields

end

mutual

/-- **JSON-representable**: without `undefined` and without dates. -/
def isJson : ColumnValue → Bool
  | undefined => false
  | null => true
  | bool _ => true
  | number _ => true
  | string _ => true
  | date _ => false
  | array items => isJsonItems items
  | object fields => isJsonFields fields

def isJsonItems : List ColumnValue → Bool
  | [] => true
  | v :: items => isJson v && isJsonItems items

def isJsonFields : List (JSString × ColumnValue) → Bool
  | [] => true
  | (_, v) :: fields => isJson v && isJsonFields fields

end

end ColumnValue

/-- A record as text and back. -/
def jsonCopyValues (toISOString : ℤ → JSString) (values : ColumnValues) : ColumnValues :=
  let defined := VirtualViewEntryData.definedValues values
  ⟨defined.toList.map fun e => (e.1, e.2.jsonCopy toISOString), by
    rw [List.map_map]
    exact defined.nodupKeys⟩

/-! ## Nodes -/

structure SerializedVirtualViewSortKey where
  c : Bool
  v : List ColumnValue
  o : JSString
  d : JSString

structure SerializedVirtualViewCounts where
  childCount : ℤ
  childCategoryCount : ℤ
  childDocumentCount : ℤ
  descendantCount : ℤ
  descendantDocumentCount : ℤ
  descendantCategoryCount : ℤ

/-- A node but for its children. -/
structure SerializedViewEntry where
  o : JSString
  d : JSString
  sk : SerializedVirtualViewSortKey
  cv : ColumnValues
  il : ℕ
  si : ℕ
  cod : Bool
  cnt : SerializedVirtualViewCounts
  tv : Option (LinkedMap JSString FiniteNumber)
  dk : Option JSString

/-- An entry with its children, as JSON. -/
inductive SerializedVirtualViewNode where
  | mk (entry : SerializedViewEntry) (ch : List SerializedVirtualViewNode)

/-- A version-2 snapshot. -/
structure ViewSnapshot where
  categoryIdCounter : ℕ
  categorizationStyle : CategorizationStyle
  docOrderDescending : List Bool
  tree : SerializedVirtualViewNode

def SerializedViewEntry.jsonCopy (toISOString : ℤ → JSString) (entry : SerializedViewEntry) :
    SerializedViewEntry :=
  { entry with
    sk := { entry.sk with v := ColumnValue.jsonCopyItems toISOString entry.sk.v }
    cv := jsonCopyValues toISOString entry.cv }

namespace SerializedVirtualViewNode

def entry : SerializedVirtualViewNode → SerializedViewEntry
  | mk entry _ => entry

def ch : SerializedVirtualViewNode → List SerializedVirtualViewNode
  | mk _ ch => ch

mutual

def jsonCopy (toISOString : ℤ → JSString) : SerializedVirtualViewNode → SerializedVirtualViewNode
  | mk entry ch => mk (entry.jsonCopy toISOString) (jsonCopyAll toISOString ch)

def jsonCopyAll (toISOString : ℤ → JSString) :
    List SerializedVirtualViewNode → List SerializedVirtualViewNode
  | [] => []
  | node :: nodes => jsonCopy toISOString node :: jsonCopyAll toISOString nodes

end

mutual

/-- How many nodes there are. -/
def size : SerializedVirtualViewNode → ℕ
  | mk _ ch => sizeAll ch + 1

def sizeAll : List SerializedVirtualViewNode → ℕ
  | [] => 0
  | node :: nodes => size node + sizeAll nodes

end

end SerializedVirtualViewNode

/-- The snapshot that is read, as text and back. -/
def ViewSnapshot.jsonCopy (toISOString : ℤ → JSString) (snapshot : ViewSnapshot) : ViewSnapshot :=
  { snapshot with tree := snapshot.tree.jsonCopy toISOString }

/-! ## Export -/

/-- `buildNode`, without the children. -/
def VirtualViewEntryData.serialize (e : VirtualViewEntryData) : SerializedViewEntry where
  o := e.origin
  d := e.docId
  sk := ⟨e.sortKey.isCategory, e.sortKey.values, e.sortKey.origin, e.sortKey.docId⟩
  cv := e.columnValues
  il := e.indentLevels
  si := e.siblingIndex
  cod := e.childrenComparator.categoryOrderDescending
  cnt := ⟨e.childCount, e.childCategoryCount, e.childDocumentCount, e.descendantCount,
    e.descendantDocumentCount, e.descendantCategoryCount⟩
  tv := if e.totalValues.size > 0 then some e.totalValues else none
  -- an id that is the empty text is no id here
  dk := if e.isCategory then none else e.decryptionKeyId.filter fun keyId => !keyId.isEmpty

/-- The node of an entry, down to a depth. -/
def ViewIndex.serializeNode (env : Runtime) (s : ViewIndex) :
    ℕ → EntryPath → VirtualViewEntryData → SerializedVirtualViewNode
  | 0, _, e => .mk e.serialize []
  | depth + 1, path, e => .mk e.serialize ((s.getChildEntries env path).filterMap fun key =>
      (s.entries.get? (key.toKey env :: path)).map
        (serializeNode env s depth (key.toKey env :: path)))

namespace VirtualView

variable (view : VirtualView)

/-- The root, made when there is none. -/
def getRoot (s : ViewIndex) : VirtualViewEntryData :=
  (s.entries.get? []).getD
    { origin := ORIGIN_VIRTUALVIEW
      docId := ("cat_" : JSString) ++ JSString.ofNat (s.categoryIdCounter + 4)
      sortKey := ⟨true, [], ORIGIN_VIRTUALVIEW, "root"⟩
      childrenComparator := view.childComparator (firstDescending view.categoryColumns) }

/-- **The snapshot of a view.**  No entry lies deeper than there are entries. -/
def exportCacheState (s : ViewIndex) : ViewSnapshot where
  categoryIdCounter := s.categoryIdCounter
  categorizationStyle := view.categorizationStyle
  docOrderDescending := view.docOrderDescending
  tree := s.serializeNode view.env s.entries.size [] (view.getRoot s)

/-! ## Restoration -/

/-- The entry that `buildEntry` makes of a node. -/
def restoredEntry (docOrderDesc : List Bool) (nodeData : SerializedViewEntry) :
    VirtualViewEntryData where
  origin := nodeData.o
  docId := nodeData.d
  sortKey := ⟨nodeData.sk.c, nodeData.sk.v, nodeData.sk.o, nodeData.sk.d⟩
  childrenComparator :=
    { categoriesOnTopOfDocuments := view.categorizationStyle = .CATEGORY_THEN_DOCUMENT
      categoryOrderDescending := nodeData.cod
      docOrderPerColumnDescending := docOrderDesc }
  columnValues := VirtualViewEntryData.definedValues nodeData.cv
  decryptionKeyId := nodeData.dk
  siblingIndex := nodeData.si
  indentLevels := nodeData.il
  childCount := nodeData.cnt.childCount
  childCategoryCount := nodeData.cnt.childCategoryCount
  childDocumentCount := nodeData.cnt.childDocumentCount
  descendantCount := nodeData.cnt.descendantCount
  descendantDocumentCount := nodeData.cnt.descendantDocumentCount
  descendantCategoryCount := nodeData.cnt.descendantCategoryCount
  totalValues := nodeData.tv.getD ∅

/-- An entry as it is listed. -/
def occurrenceOf (path : EntryPath) (e : VirtualViewEntryData) : Occurrence where
  path := path
  isCategory := e.isCategory
  origin := e.origin
  docId := e.docId
  columnValues := e.columnValues
  decryptionKeyId := e.decryptionKeyId

/-- Hang an entry up and list it. -/
def restoreEntry (s : ViewIndex) (path : EntryPath) (e : VirtualViewEntryData) : ViewIndex :=
  let scopedKey := scopedDocIdKey e.origin e.docId
  { s with
    entries := s.entries.set path e
    entriesByDocId := s.entriesByDocId.set scopedKey
      ((s.entriesByDocId.get? scopedKey).getD [] ++ [occurrenceOf path e]) }

/-- The path of a child. -/
def childPath (docOrderDesc : List Bool) (path : EntryPath) (child : SerializedVirtualViewNode) :
    EntryPath :=
  (view.restoredEntry docOrderDesc child.entry).sortKey.toKey view.env :: path

/-- The loop of `deserializeNode`, which a number of steps bounds. -/
def restoreStack (docOrderDesc : List Bool) :
    ℕ → List (EntryPath × SerializedVirtualViewNode) → ViewIndex → ViewIndex
  | steps + 1, (path, node) :: stack, s =>
    let children := node.ch.map fun child => (view.childPath docOrderDesc path child, child)
    restoreStack docOrderDesc steps (children.reverse ++ stack)
      (children.foldl (fun s child =>
        restoreEntry s child.1 (view.restoredEntry docOrderDesc child.2.entry)) s)
  | _, _, s => s

/-- **A fresh view, restored.** -/
def restoreFromTreeSnapshot (snapshot : ViewSnapshot) : VirtualView × ViewIndex :=
  let view := { view with categorizationStyle := snapshot.categorizationStyle }
  let docOrderDesc := snapshot.docOrderDescending
  let rootless : ViewIndex := { entries := ∅, categoryIdCounter := snapshot.categoryIdCounter }
  (view, view.restoreStack docOrderDesc snapshot.tree.size [([], snapshot.tree)]
    (restoreEntry rootless [] (view.restoredEntry docOrderDesc snapshot.tree.entry)))

end VirtualView

end MindooDB
