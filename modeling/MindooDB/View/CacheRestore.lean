import MindooDB.Lib.Json
import MindooDB.Lib.Utf8
import MindooDB.View.Entry

/-!
# View/CacheRestore — restoring a view from whatever is in its cache

`restoreFromCache`, `restoreFromTreeSnapshot` and `deserializeNode` of
`core/indexing/virtualviews/VirtualView.ts`, with `importCacheState` of the two providers.  The bytes
may be anything, so a snapshot is a JSON value that nobody has checked, and every step may throw.
`restoreFromCache` catches that and returns `false`, but what was changed before stays changed.

What a restored entry holds is read off its node, so the node stands for it.
-/

namespace MindooDB

open JsValue

/-- `JSON.parse`, which throws on some texts and never makes two properties of one name, and the
text of a number. -/
structure CacheRuntime where
  jsonParse : JSString → Option Json
  numberText : JsNumber → JSString
  distinct : ∀ text v name w, jsonParse text = some v → get (some v) name = some (some w) →
    ((entries w).map Prod.fst).Nodup

/-! ## The providers -/

/-- The providers of documents, those of summaries, and those without a cache state. -/
inductive ProviderKind where
  | documents
  | summary
  | other
  deriving DecidableEq

/-- A provider: its cursor, or how far it has applied the changes, and the documents it knows. -/
structure CachedProvider where
  kind : ProviderKind
  cursor : Json
  knownDocIds : List Json

namespace CachedProvider

/-- The `importCacheState` of a provider whose cursor is in `cursorField`; whether it came to its
end. -/
def importState (cursorField : JSString) (missing : Json) (provider : CachedProvider)
    (state : Json) : CachedProvider × Bool :=
  match get (some state) cursorField with
  | none => (provider, false)
  | some cursor =>
    let provider := { provider with cursor := if isNullish cursor then missing else cursor.getD .null }
    let known := (get (some state) "knownDocIds").getD none
    if JsValue.truthy known then
      match iterate known with
      | none => (provider, false)
      | some items => ({ provider with knownDocIds := newSet items }, true)
    else (provider, true)

def importCacheState (provider : CachedProvider) (state : Json) : CachedProvider × Bool :=
  match provider.kind with
  | .documents => provider.importState "cursor" .null state
  | .summary => provider.importState "appliedChangeSeq" (.number (some (-1))) state
  | .other => (provider, true)

end CachedProvider

/-! ## The view -/

/-- The tree of a view: as batches have built it, or restored from a node. -/
inductive RootEntry where
  | built (entries : LinkedMap EntryPath VirtualViewEntryData)
  | restored (node : Json)

/-- An entry of the look-up table. -/
inductive ListedEntry where
  | built (occurrence : Occurrence)
  | restored (node : Json)

abbrev LookupTable := LinkedMap JSString (List ListedEntry)

/-- What a restoration reads and writes of a view. -/
structure CachedView where
  docOrderDescending : List Bool
  categoryIdCounter : Json
  categorizationStyle : Json
  rootEntry : RootEntry
  entriesByDocId : LookupTable
  providers : LinkedMap JSString CachedProvider

/-- The states of the snapshot, each for the provider of its origin, until one throws. -/
def importProviderStates :
    List (JSString × Json) → LinkedMap JSString CachedProvider →
      LinkedMap JSString CachedProvider × Bool
  | [], providers => (providers, true)
  | (origin, state) :: rest, providers =>
    match providers.get? origin with
    | none => importProviderStates rest providers
    | some provider =>
      let imported := provider.importCacheState state
      let providers := providers.set origin imported.1
      if imported.2 then importProviderStates rest providers else (providers, false)

section Tree

variable (rt : CacheRuntime) (docOrderDesc : Json)

/-- What `buildEntry` reads of a node before it lists the entry: the key it lists it under. -/
def entryKey (nodeData : Json) : Option JSString := do
  let sk ← get (some nodeData) "sk"
  let values ← get sk "v"
  let _ ← iterate values
  let _ ← iterate (some docOrderDesc)
  let origin ← get (some nodeData) "o"
  let docId ← get (some nodeData) "d"
  let originText ← JsValue.textOf rt.numberText origin
  let docIdText ← JsValue.textOf rt.numberText docId
  some (originText ++ (":" : JSString) ++ docIdText)

/-- Build the entry of a node and list it. -/
def buildEntry (nodeData : Json) (table : LookupTable) : Option LookupTable :=
  (entryKey rt docOrderDesc nodeData).map fun key =>
    table.set key ((table.get? key).getD [] ++ [.restored nodeData])

/-- What `_addRestoredChild` asks of a child: the `toKey` of its sort key. -/
def hasSortKeyText (nodeData : Json) : Bool :=
  (do
    let sk ← get (some nodeData) "sk"
    let origin ← get sk "o"
    let docId ← get sk "d"
    let originText ← JsValue.textOf rt.numberText origin
    let docIdText ← JsValue.textOf rt.numberText docId
    some (originText, docIdText)).isSome

/-- The children of a node, each pushed on the stack; `none` when one throws. -/
def addChildren : List Json → LookupTable → List Json → LookupTable × Option (List Json)
  | [], table, stack => (table, some stack)
  | childData :: rest, table, stack =>
    match buildEntry rt docOrderDesc childData table with
    | none => (table, none)
    | some table =>
      if hasSortKeyText rt childData then addChildren rest table (childData :: stack)
      else (table, none)

/-- `nodeData.ch`. -/
def childrenOf (nodeData : Json) : JsValue := (get (some nodeData) "ch").getD none

theorem itemObjects_of_addChildren {children : List Json} {table table' : LookupTable}
    {stack stack' : List Json}
    (h : addChildren rt docOrderDesc children table stack = (table', some stack')) :
    itemObjects stack' = itemObjects children + itemObjects stack := by
  induction children generalizing table stack with
  | nil =>
    obtain ⟨-, hstack⟩ := Prod.mk.inj h
    rw [← Option.some.inj hstack, itemObjects, Nat.zero_add]
  | cons child children ih =>
    rw [addChildren] at h
    split at h
    · exact absurd (Prod.mk.inj h).2 (by simp)
    · split at h
      · rw [ih h, itemObjects, itemObjects]
        omega
      · exact absurd (Prod.mk.inj h).2 (by simp)

theorem itemObjects_children_lt {nodeData : Json} {children : List Json}
    (h : iterate (childrenOf nodeData) = some children) :
    itemObjects children < objects nodeData := by
  cases hget : childrenOf nodeData with
  | none =>
    rw [hget] at h
    exact absurd h (by simp [iterate])
  | some w =>
    rw [hget] at h
    refine (itemObjects_le_of_iterate h).trans_lt
      (objects_lt_of_get (show get (some nodeData) "ch" = some (some w) from ?_))
    rw [childrenOf] at hget
    cases hproperty : get (some nodeData) "ch" with
    | none => exact absurd hget (by simp [hproperty])
    | some w' =>
      rw [hproperty, Option.getD_some] at hget
      rw [hget]

/-- The loop of `deserializeNode`: the table, and whether it came to its end. -/
def restoreStack (table : LookupTable) (stack : List Json) : LookupTable × Bool :=
  match stack with
  | [] => (table, true)
  | nodeData :: stack =>
    if JsValue.truthy (childrenOf nodeData) then
      match _hchildren : iterate (childrenOf nodeData) with
      | none => (table, false)
      | some children =>
        match _hadded : addChildren rt docOrderDesc children table stack with
        | (table, none) => (table, false)
        | (table, some stack) => restoreStack table stack
    else restoreStack table stack
termination_by (itemObjects stack, stack.length)
decreasing_by
  · refine Prod.Lex.left _ _ ?_
    rw [itemObjects_of_addChildren rt docOrderDesc _hadded, itemObjects]
    exact Nat.add_lt_add_right (itemObjects_children_lt _hchildren) _
  · rw [itemObjects]
    rcases Nat.eq_zero_or_pos (objects nodeData) with hzero | hpos
    · rw [hzero, Nat.zero_add]
      exact Prod.Lex.right _ (Nat.lt_succ_self _)
    · exact Prod.Lex.left _ _ (Nat.lt_add_of_pos_left hpos)

end Tree

section Restore

variable (rt : CacheRuntime) (view : CachedView)

/-- A property of the snapshot. -/
def snapshotField (snapshot : Json) (name : JSString) : JsValue :=
  (get (some snapshot) name).getD none

/-- `snapshot.docOrderDescending ?? [...this.docOrderDescending]`. -/
def CachedView.docOrderDesc (snapshot : Json) : Json :=
  let given := snapshotField snapshot "docOrderDescending"
  if isNullish given then .array (view.docOrderDescending.map .bool) else given.getD .null

/-- The states of the providers that a snapshot holds. -/
def providerStates (snapshot : Json) : List (JSString × Json) :=
  let states := snapshotField snapshot "providerStates"
  if JsValue.truthy states then entries (states.getD .null) else []

/-- The counter and the style that a snapshot holds. -/
def CachedView.restoreSettings (snapshot : Json) : CachedView :=
  let counter := snapshotField snapshot "categoryIdCounter"
  let style := snapshotField snapshot "categorizationStyle"
  { view with
    categoryIdCounter := if isNullish counter then .number (some 4) else counter.getD .null
    categorizationStyle := if JsValue.truthy style then style.getD .null else view.categorizationStyle }

/-- The tree of a snapshot, when it has one. -/
def restoreTree (snapshot : Json) : CachedView × Bool :=
  let treeData := snapshotField snapshot "tree"
  if JsValue.truthy treeData then
    let node := treeData.getD .null
    match buildEntry rt (view.docOrderDesc snapshot) node view.entriesByDocId with
    | none => (view, false)
    | some table =>
      let (table, restored) := restoreStack rt (view.docOrderDesc snapshot) table [node]
      if restored then ({ view with entriesByDocId := table, rootEntry := .restored node }, true)
      else ({ view with entriesByDocId := table }, false)
  else (view, false)

variable {rt view} in
theorem restoreTree_of_truthy {snapshot : Json} {tree : Option Json}
    (htree : snapshotField snapshot "tree" = tree) (htruthy : JsValue.truthy tree = true) :
    restoreTree rt view snapshot
      = match buildEntry rt (view.docOrderDesc snapshot) (tree.getD .null) view.entriesByDocId with
        | none => (view, false)
        | some table =>
          let (table, restored) :=
            restoreStack rt (view.docOrderDesc snapshot) table [tree.getD .null]
          if restored then
            ({ view with entriesByDocId := table, rootEntry := .restored (tree.getD .null) }, true)
          else ({ view with entriesByDocId := table }, false) := by
  subst htree
  exact if_pos htruthy

/-- `restoreFromTreeSnapshot`, with `false` where it throws. -/
def restoreFromTreeSnapshot (snapshot : Json) : CachedView × Bool :=
  let view := view.restoreSettings snapshot
  let imported := importProviderStates (providerStates snapshot) view.providers
  let view := { view with providers := imported.1 }
  if imported.2 then restoreTree rt view snapshot else (view, false)

/-- **Restore a view from the bytes in its cache.** -/
def restoreFromCache (bytes : List ℕ) : CachedView × Bool :=
  match rt.jsonParse (Utf8.decode bytes) with
  | none => (view, false)
  | some snapshot =>
    match get (some snapshot) "version" with
    | some (some (.number (some 2))) => restoreFromTreeSnapshot rt view snapshot
    | _ => (view, false)

end Restore

end MindooDB
