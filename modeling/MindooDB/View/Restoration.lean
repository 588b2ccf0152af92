import MindooDB.View.Snapshot
import MindooDB.View.TwinRuns

/-!
# View/Restoration — what is restored is a twin

Values without `undefined` and dates come back from their text as they were; in a sort key
`undefined` comes back as null, which no comparison tells from it.  The loop of the restoration
comes by every node of a snapshot once, and by siblings in their order, so the restored tree is a
twin of the one that was written.
-/

namespace MindooDB

open ColumnValue LinkedMap SerializedVirtualViewNode ViewEntrySortKey ViewEntrySortKeyComparator VirtualView

/-! ## Values -/

namespace ColumnValue

variable {toISOString : ℤ → JSString}

mutual

theorem jsonCopy_of_isJson : (v : ColumnValue) → v.isJson = true → v.jsonCopy toISOString = v
  | undefined, h => absurd h (by simp [isJson])
  | null, _ => rfl
  | bool _, _ => rfl
  | number _, _ => rfl
  | string _, _ => rfl
  | date _, h => absurd h (by simp [isJson])
  | array items, h => by
    rw [isJson] at h
    rw [jsonCopy, jsonCopyItems_of_isJson items h]
  | object fields, h => by
    rw [isJson] at h
    rw [jsonCopy, jsonCopyFields_of_isJson fields h]

theorem jsonCopyItems_of_isJson : (items : List ColumnValue) → isJsonItems items = true →
    jsonCopyItems toISOString items = items
  | [], _ => rfl
  | v :: items, h => by
    rw [isJsonItems, Bool.and_eq_true] at h
    rw [jsonCopyItems, jsonCopy_of_isJson v h.1, jsonCopyItems_of_isJson items h.2]

theorem jsonCopyFields_of_isJson : (fields : List (JSString × ColumnValue)) →
    isJsonFields fields = true → jsonCopyFields toISOString fields = fields
  | [], _ => rfl
  | (k, v) :: fields, h => by
    rw [isJsonFields, Bool.and_eq_true] at h
    have hdefined : v ≠ undefined := fun heq => absurd h.1 (by simp [heq, isJson])
    rw [jsonCopyFields, jsonCopy_of_isJson v h.1, jsonCopyFields_of_isJson fields h.2]
    exact hdefined

end

theorem jsonCopy_ne_undefined (v : ColumnValue) : v.jsonCopy toISOString ≠ undefined := by
  cases v <;> simp [jsonCopy]

mutual

/-- **The text of a copy** is the text, for one value as for the lists of a sort key. -/
theorem stringify_jsonCopy :
    (v : ColumnValue) → (v.jsonCopy toISOString).stringify toISOString = v.stringify toISOString
  | undefined | null => rfl
  | bool _ => rfl
  | number _ => rfl
  | string _ => rfl
  | date _ => rfl
  | array items => by rw [jsonCopy, stringify, stringify, stringifyItems_jsonCopyItems items]
  | object fields => by rw [jsonCopy, stringify, stringify, stringifyFields_jsonCopyFields fields]

theorem stringifyItems_jsonCopyItems : (items : List ColumnValue) →
    stringifyItems toISOString (jsonCopyItems toISOString items) = stringifyItems toISOString items
  | [] => rfl
  | v :: items => by
    rw [jsonCopyItems, stringifyItems, stringifyItems, stringify_jsonCopy v,
      stringifyItems_jsonCopyItems items]

theorem stringifyFields_jsonCopyFields : (fields : List (JSString × ColumnValue)) →
    stringifyFields toISOString (jsonCopyFields toISOString fields)
      = stringifyFields toISOString fields
  | [] => rfl
  | (k, v) :: fields => by
    by_cases hdefined : v = undefined
    · subst hdefined
      rw [jsonCopyFields, stringifyFields, stringifyFields_jsonCopyFields fields]
    · rw [jsonCopyFields, stringifyFields, stringifyFields, stringify_jsonCopy v,
        stringifyFields_jsonCopyFields fields]
      · exact hdefined
      · exact jsonCopy_ne_undefined v
      · exact hdefined

end

end ColumnValue

theorem jsonCopyItems_eq_map (toISOString : ℤ → JSString) (items : List ColumnValue) :
    jsonCopyItems toISOString items = items.map (·.jsonCopy toISOString) := by
  induction items with
  | nil => rfl
  | cons v items ih => rw [jsonCopyItems, ih, List.map_cons]

/-- A record of such values comes back as it was. -/
theorem definedValues_of_isJson {values : ColumnValues}
    (h : ∀ name v, values.get? name = some v → v.isJson = true) :
    VirtualViewEntryData.definedValues values = values := by
  refine ext (List.filter_eq_self.mpr fun e he => ?_)
  have hjson := h e.1 e.2 (mem_toList_iff.mp he)
  obtain ⟨name, v⟩ := e
  cases v <;> first | rfl | exact absurd hjson (by simp [isJson])

theorem jsonCopyValues_of_isJson {values : ColumnValues} (toISOString : ℤ → JSString)
    (h : ∀ name v, values.get? name = some v → v.isJson = true) :
    jsonCopyValues toISOString values = values := by
  refine ext ?_
  show (VirtualViewEntryData.definedValues values).toList.map
    (fun e => (e.1, e.2.jsonCopy toISOString)) = values.toList
  rw [definedValues_of_isJson h]
  refine (List.map_congr_left fun e he => ?_).trans (List.map_id _)
  rw [jsonCopy_of_isJson e.2 (h e.1 e.2 (mem_toList_iff.mp he))]
  rfl

/-! ## Sort keys -/

section SortKeys

variable {env : Runtime}

theorem Alike.refl (env : Runtime) (v : ColumnValue) : Alike env v v :=
  ⟨rfl, fun _ _ => rfl, fun _ _ => rfl⟩

theorem compareColumns_congr {values values' : List ColumnValue}
    (h : List.Forall₂ (Alike env) values values') (descending : List Bool) (n : ℕ)
    (others : List ColumnValue) :
    compareColumns env descending n values others = compareColumns env descending n values' others
      ∧ compareColumns env descending n others values
        = compareColumns env descending n others values' := by
  induction n generalizing descending values values' others with
  | zero => exact ⟨rfl, rfl⟩
  | succ n ih =>
    have hhead : Alike env (values.head?.getD .null) (values'.head?.getD .null) := by
      cases h with
      | nil => exact Alike.refl env _
      | cons hv _ => exact hv
    have htail : List.Forall₂ (Alike env) values.tail values'.tail := by
      cases h with
      | nil => exact .nil
      | cons _ hrest => exact hrest
    obtain ⟨hleft, hright⟩ := ih htail descending.tail others.tail
    simp only [compareColumns, hhead.left, hhead.right, hleft, hright, and_self]

/-- **Keys of alike values** are alike. -/
theorem keysAlike_of_values {a a' : ViewEntrySortKey}
    (h : List.Forall₂ (Alike env) a.values a'.values) (hcategory : a'.isCategory = a.isCategory)
    (horigin : a'.origin = a.origin) (hdocId : a'.docId = a.docId) : KeysAlike env a a' := by
  obtain ⟨isCategory, values, origin, docId⟩ := a
  obtain ⟨isCategory', values', origin', docId'⟩ := a'
  obtain rfl : isCategory' = isCategory := hcategory
  obtain rfl : origin' = origin := horigin
  obtain rfl : docId' = docId := hdocId
  have hlength : values.length = values'.length := h.length_eq
  have hhead : Alike env (values.head?.getD .null) (values'.head?.getD .null) := by
    cases h with
    | nil => exact Alike.refl env _
    | cons hv _ => exact hv
  constructor
  · intro cmp b
    have hcolumns := (compareColumns_congr h cmp.docOrderPerColumnDescending
      (max values.length b.values.length) b.values).1
    simp only [ViewEntrySortKeyComparator.compare, ViewEntrySortKeyComparator.compareCategories,
      compareDocuments, ← hlength, hcolumns, hhead.isNullish, hhead.left,
      compareOriginAndDocId]
  · intro cmp b
    have hcolumns := (compareColumns_congr h cmp.docOrderPerColumnDescending
      (max b.values.length values.length) b.values).2
    simp only [ViewEntrySortKeyComparator.compare, ViewEntrySortKeyComparator.compareCategories,
      compareDocuments, ← hlength, hcolumns, hhead.isNullish,
      hhead.right, compareOriginAndDocId]

/-- **A sort key as text and back.** -/
theorem sameKey_jsonCopy {a : ViewEntrySortKey}
    (h : ∀ v ∈ a.values, v.isJson = true ∨ v = .undefined) :
    SameKey env a { a with values := jsonCopyItems env.toISOString a.values } where
  toKey := by
    rw [toKey, toKey, stringifyItems_jsonCopyItems]
  alike := by
    refine keysAlike_of_values ?_ rfl rfl rfl
    rw [jsonCopyItems_eq_map]
    refine List.forall₂_map_right_iff.mpr (List.forall₂_same.mpr fun v hv => ?_)
    rcases h v hv with hjson | rfl
    · rw [jsonCopy_of_isJson v hjson]
      exact Alike.refl env v
    · exact ⟨rfl, fun _ _ => rfl, fun _ _ => rfl⟩

end SortKeys

/-! ## The nodes of a tree -/

variable {node : SerializedVirtualViewNode} {path : EntryPath}

section Nodes

variable {env : Runtime} {s : ViewIndex}

mutual

/-- **A node that mirrors the tree** from a path down. -/
def Mirrors (env : Runtime) (s : ViewIndex) : EntryPath → SerializedVirtualViewNode → Prop
  | path, .mk entry ch =>
    (∃ e, s.entries.get? path = some e ∧ entry = e.serialize.jsonCopy env.toISOString)
      ∧ MirrorsAll env s path (s.getChildEntries env path) ch

/-- Nodes that mirror siblings. -/
def MirrorsAll (env : Runtime) (s : ViewIndex) (path : EntryPath) :
    List ViewEntrySortKey → List SerializedVirtualViewNode → Prop
  | [], [] => True
  | key :: keys, node :: nodes =>
    Mirrors env s (key.toKey env :: path) node ∧ MirrorsAll env s path keys nodes
  | _, _ => False

end

theorem mirrorsAll_iff {keys : List ViewEntrySortKey}
    {nodes : List SerializedVirtualViewNode} : MirrorsAll env s path keys nodes
      ↔ List.Forall₂ (fun key node => Mirrors env s (key.toKey env :: path) node) keys nodes := by
  induction keys generalizing nodes with
  | nil => cases nodes <;> simp [MirrorsAll]
  | cons key keys ih => cases nodes <;> simp [MirrorsAll, ih]

theorem Mirrors.entry {path : EntryPath} {node : SerializedVirtualViewNode}
    (h : Mirrors env s path node) : ∃ e, s.entries.get? path = some e
      ∧ node.entry = e.serialize.jsonCopy env.toISOString := by
  obtain ⟨entry, ch⟩ := node
  rw [Mirrors] at h
  exact h.1

theorem Mirrors.children (h : Mirrors env s path node) : List.Forall₂
      (fun key child => Mirrors env s (key.toKey env :: path) child) (s.getChildEntries env path)
      node.ch := by
  obtain ⟨entry, ch⟩ := node
  rw [Mirrors] at h
  exact mirrorsAll_iff.mp h.2

theorem sum_map_size (nodes : List SerializedVirtualViewNode) :
    (nodes.map (·.size)).sum = sizeAll nodes := by
  induction nodes with
  | nil => rfl
  | cons node nodes ih =>
    rw [List.map_cons, List.sum_cons, ih, sizeAll]

theorem jsonCopyAll_eq_map (toISOString : ℤ → JSString) (nodes : List SerializedVirtualViewNode) :
    jsonCopyAll toISOString nodes = nodes.map (·.jsonCopy toISOString) := by
  induction nodes with
  | nil => rfl
  | cons node nodes ih => rw [jsonCopyAll, ih, List.map_cons]

/-- **What is written down mirrors the tree**, when the depth suffices. -/
theorem mirrors_serializeNode (h : Orderly env s) {depth : ℕ}
    {e : VirtualViewEntryData} (hget : s.entries.get? path = some e)
    (hdepth : ∀ q a, s.entries.get? q = some a → path <:+ q → q.length ≤ path.length + depth) :
    Mirrors env s path ((s.serializeNode env depth path e).jsonCopy env.toISOString) := by
  induction depth generalizing path e with
  | zero =>
    have hnone : s.getChildEntries env path = [] := by
      refine List.eq_nil_iff_forall_not_mem.mpr fun key hkey => ?_
      obtain ⟨a, ha⟩ := (mem_getChildEntries_iff h.cached h.tree).mp (List.mem_map_of_mem hkey)
      have hlength := hdepth _ a ha (List.suffix_cons _ _)
      rw [List.length_cons] at hlength
      omega
    rw [ViewIndex.serializeNode, SerializedVirtualViewNode.jsonCopy, Mirrors, hnone]
    exact ⟨⟨e, hget, rfl⟩, trivial⟩
  | succ depth ih =>
    rw [ViewIndex.serializeNode, SerializedVirtualViewNode.jsonCopy, Mirrors, mirrorsAll_iff,
      jsonCopyAll_eq_map, List.map_filterMap]
    refine ⟨⟨e, hget, rfl⟩, ?_⟩
    have hall : ∀ key ∈ s.getChildEntries env path, ∃ child,
        ((s.entries.get? (key.toKey env :: path)).map
          (s.serializeNode env depth (key.toKey env :: path))).map (·.jsonCopy env.toISOString)
            = some child ∧ Mirrors env s (key.toKey env :: path) child := by
      intro key hkey
      obtain ⟨a, ha⟩ := (mem_getChildEntries_iff h.cached h.tree).mp (List.mem_map_of_mem hkey)
      refine ⟨_, by rw [ha]; rfl, ih ha fun q b hb hsuffix => ?_⟩
      have hlength := hdepth q b hb ((List.suffix_cons _ _).trans hsuffix)
      rw [List.length_cons]
      omega
    exact forall₂_filterMap hall

/-- No path is longer than there are entries. -/
theorem Tree.length_lt_size (h : Tree env s) {q : EntryPath} {a : VirtualViewEntryData}
    (hget : s.entries.get? q = some a) : q.length < s.entries.size := by
  have hnodup : ((List.range (q.length + 1)).map fun n => q.drop n).Nodup := by
    refine List.Nodup.map_on (fun n hn m hm heq => ?_) List.nodup_range
    rw [List.mem_range] at hn hm
    have hlength := congrArg List.length heq
    rw [List.length_drop, List.length_drop] at hlength
    omega
  have hsub : ((List.range (q.length + 1)).map fun n => q.drop n) ⊆ s.entries.keys := by
    intro p hp
    obtain ⟨n, -, rfl⟩ := List.mem_map.mp hp
    exact mem_keys_iff.mpr (h.exists_of_suffix hget (List.drop_suffix n q))
  have hle := (List.subperm_of_subset hnodup hsub).length_le
  rw [List.length_map, List.length_range, length_keys] at hle
  omega

end Nodes

/-! ## The loop of the restoration -/

section Loop

variable {view : VirtualView} {docOrderDesc : List Bool} {s : ViewIndex} {p : EntryPath}

/-- Nodes at their paths. -/
abbrev PlacedNodes := List (EntryPath × SerializedVirtualViewNode)

variable (view docOrderDesc) in
/-- The children of a node at their paths. -/
def placedChildren (path : EntryPath) (node : SerializedVirtualViewNode) : PlacedNodes :=
  node.ch.map fun child => (view.childPath docOrderDesc path child, child)

variable (view docOrderDesc) in
/-- The nodes that the loop comes by, in order. -/
def visits : ℕ → PlacedNodes → PlacedNodes
  | steps + 1, (path, node) :: stack =>
    placedChildren view docOrderDesc path node
      ++ visits steps ((placedChildren view docOrderDesc path node).reverse ++ stack)
  | _, _ => []

variable (view docOrderDesc) in
/-- Hang up the entry of a node. -/
def restoreNode (s : ViewIndex) (x : EntryPath × SerializedVirtualViewNode) : ViewIndex :=
  restoreEntry s x.1 (view.restoredEntry docOrderDesc x.2.entry)

theorem restoreStack_eq (steps : ℕ) (stack : PlacedNodes) (s : ViewIndex) :
    view.restoreStack docOrderDesc steps stack s
      = (visits view docOrderDesc steps stack).foldl (restoreNode view docOrderDesc) s := by
  induction steps generalizing stack s with
  | zero => cases stack <;> rfl
  | succ steps ih =>
    cases stack with
    | nil => rfl
    | cons x stack =>
      obtain ⟨path, node⟩ := x
      rw [VirtualView.restoreStack, visits, List.foldl_append, ih]
      rfl

theorem toKey_restoredEntry (e : VirtualViewEntryData) :
    (view.restoredEntry docOrderDesc (e.serialize.jsonCopy view.env.toISOString)).sortKey.toKey
      view.env = e.sortKey.toKey view.env := by
  rw [toKey, toKey]
  simp only [restoredEntry, SerializedViewEntry.jsonCopy, VirtualViewEntryData.serialize,
    stringifyItems_jsonCopyItems]

variable (view) in
/-- A node comes to the path of a key, and mirrors what is there. -/
def ComesTo (s : ViewIndex) (path : EntryPath) (key : ViewEntrySortKey)
    (x : EntryPath × SerializedVirtualViewNode) : Prop :=
  x.1 = key.toKey view.env :: path ∧ Mirrors view.env s x.1 x.2

variable (docOrderDesc) in
/-- **The children of a node** come to their paths. -/
theorem Mirrors.placedChildren (htree : Tree view.env s) {path : EntryPath}
    {node : SerializedVirtualViewNode} (h : Mirrors view.env s path node) :
    List.Forall₂ (ComesTo view s path) (s.getChildEntries view.env path)
      (placedChildren view docOrderDesc path node) := by
  refine List.forall₂_map_right_iff.mpr (h.children.imp fun key child hchild => ?_)
  obtain ⟨e, he, hentry⟩ := hchild.entry
  have hpath : view.childPath docOrderDesc path child = key.toKey view.env :: path := by
    rw [childPath, hentry, toKey_restoredEntry, htree.key he]
  exact ⟨hpath, by rw [hpath]; exact hchild⟩

/-- **The stack**: nodes that mirror the tree, none above another. -/
structure StackOf (view : VirtualView) (s : ViewIndex) (stack : PlacedNodes) : Prop where
  mirrors : ∀ x ∈ stack, Mirrors view.env s x.1 x.2
  apart : stack.Pairwise fun x y => ¬x.1 <:+ y.1 ∧ ¬y.1 <:+ x.1

variable (docOrderDesc) in
theorem map_fst_placedChildren (htree : Tree view.env s) (h : Mirrors view.env s path node) :
    (placedChildren view docOrderDesc path node).map Prod.fst
      = (s.getChildEntries view.env path).map fun key => key.toKey view.env :: path :=
  map_eq_of_forall₂ (h.placedChildren docOrderDesc htree) fun _ _ hx => hx.1

variable {stack : PlacedNodes}

variable (docOrderDesc) in
/-- The stack after a step. -/
theorem StackOf.step (ho : Orderly view.env s) (h : StackOf view s ((path, node) :: stack)) :
    StackOf view s ((placedChildren view docOrderDesc path node).reverse ++ stack) := by
  have hnode := h.mirrors _ List.mem_cons_self
  have hchildren := hnode.placedChildren docOrderDesc ho.tree
  obtain ⟨hfirst, hrest⟩ := List.pairwise_cons.mp h.apart
  have hmem : ∀ x ∈ placedChildren view docOrderDesc path node, ∃ key,
      ComesTo view s path key x := fun x hx => by
    obtain ⟨key, -, hkey⟩ := forall₂_exists_left hchildren hx
    exact ⟨key, hkey⟩
  refine ⟨fun x hx => ?_, ?_⟩
  · rcases List.mem_append.mp hx with hx | hx
    · obtain ⟨key, hkey⟩ := hmem x (List.mem_reverse.mp hx)
      exact hkey.2
    · exact h.mirrors x (List.mem_cons_of_mem _ hx)
  · refine List.pairwise_append.mpr ⟨List.pairwise_reverse.mpr ?_, hrest, fun x hx y hy => ?_⟩
    · -- siblings have different keys
      have hnodup : ((placedChildren view docOrderDesc path node).map Prod.fst).Nodup := by
        rw [map_fst_placedChildren docOrderDesc ho.tree hnode]
        have hkeys := nodup_getChildEntries ho.cached ho.tree path
        have hinjective : Function.Injective fun k : EntryKey => k :: path :=
          fun a b hab => (List.cons.inj hab).1
        have hcons := hkeys.map hinjective
        rwa [List.map_map] at hcons
      refine (List.pairwise_map.mp hnodup).imp_of_mem fun {x y} hx hy hne => ?_
      obtain ⟨a, ha, -⟩ := hmem x hx
      obtain ⟨b, hb, -⟩ := hmem y hy
      have hlength : x.1.length = y.1.length := by rw [ha, hb, List.length_cons, List.length_cons]
      exact ⟨fun hsuffix => hne (hsuffix.eq_of_length hlength.symm).symm,
        fun hsuffix => hne (hsuffix.eq_of_length hlength)⟩
    · obtain ⟨key, hkey, -⟩ := hmem x (List.mem_reverse.mp hx)
      obtain ⟨hdown, hup⟩ := hfirst y hy
      rw [hkey]
      refine ⟨fun hsuffix => hdown ((List.suffix_cons _ _).trans hsuffix), fun hsuffix => ?_⟩
      rcases List.suffix_cons_iff.mp hsuffix with heq | hsuffix
      · exact hdown (heq ▸ List.suffix_cons _ _)
      · exact hup hsuffix

variable (docOrderDesc) in
theorem size_step
    {steps : ℕ} (h : (((path, node) :: stack).map fun x => x.2.size).sum ≤ steps + 1) :
    (((placedChildren view docOrderDesc path node).reverse ++ stack).map
      fun x => x.2.size).sum ≤ steps := by
  obtain ⟨entry, ch⟩ := node
  have hch : ((placedChildren view docOrderDesc path (.mk entry ch)).map fun x => x.2.size).sum
      = sizeAll ch := by
    rw [placedChildren, List.map_map, ← sum_map_size]
    rfl
  rw [List.map_cons, List.sum_cons, SerializedVirtualViewNode.size] at h
  rw [List.map_append, List.map_reverse, List.sum_append, List.sum_reverse, hch]
  omega


variable (docOrderDesc) in
/-- What lies below the stack lies below it after a step, but for the node that goes. -/
theorem below_step_iff (ho : Orderly view.env s) (hnode : Mirrors view.env s path node)
    (stack : PlacedNodes) (hp : p ≠ path) (hbelow : s.getChildEntries view.env p ≠ []) :
    (∃ x ∈ (path, node) :: stack, x.1 <:+ p)
      ↔ ∃ x ∈ (placedChildren view docOrderDesc path node).reverse ++ stack, x.1 <:+ p := by
  have hchildren := hnode.placedChildren docOrderDesc ho.tree
  simp only [List.mem_cons, List.mem_append, List.mem_reverse]
  constructor
  · rintro ⟨x, rfl | hx, hsuffix⟩
    · obtain ⟨k, hk⟩ := Tree.exists_cons_suffix hsuffix hp
      obtain ⟨key, hkey⟩ := List.exists_mem_of_ne_nil _ hbelow
      obtain ⟨e, he⟩ := (mem_getChildEntries_iff ho.cached ho.tree).mp (List.mem_map_of_mem hkey)
      obtain ⟨a, ha⟩ := ho.tree.exists_of_suffix he (hk.trans (List.suffix_cons _ _))
      obtain ⟨key', hkey', rfl⟩ := List.mem_map.mp
        ((mem_getChildEntries_iff ho.cached ho.tree).mpr ⟨a, ha⟩)
      obtain ⟨x, hx, hpath, -⟩ := forall₂_exists_right hchildren hkey'
      exact ⟨x, .inl hx, hpath ▸ hk⟩
    · exact ⟨x, .inr hx, hsuffix⟩
  · rintro ⟨x, hx | hx, hsuffix⟩
    · obtain ⟨key, -, hpath, -⟩ := forall₂_exists_left hchildren hx
      rw [hpath] at hsuffix
      exact ⟨_, .inl rfl, (List.suffix_cons _ _).trans hsuffix⟩
    · exact ⟨x, .inr hx, hsuffix⟩

variable (docOrderDesc) in
/-- **The loop comes by the siblings in their order**, and by no others below their parent. -/
theorem children_of_visits (ho : Orderly view.env s) {steps : ℕ}
    (h : StackOf view s stack) (hsteps : (stack.map fun x => x.2.size).sum ≤ steps)
    (p : EntryPath) : List.Forall₂ (ComesTo view s p)
      (if ∃ x ∈ stack, x.1 <:+ p then s.getChildEntries view.env p else [])
      ((visits view docOrderDesc steps stack).filter
        fun x => decide (ViewIndex.IsChild p x.1)) := by
  induction steps generalizing stack with
  | zero =>
    cases stack with
    | nil => rw [if_neg (by simp)]; exact .nil
    | cons x stack =>
      obtain ⟨path, entry, ch⟩ := x
      simp only [List.map_cons, List.sum_cons, SerializedVirtualViewNode.size] at hsteps
      omega
  | succ steps ih =>
    cases stack with
    | nil => rw [if_neg (by simp)]; exact .nil
    | cons x stack =>
      obtain ⟨path, node⟩ := x
      have hnode := h.mirrors _ List.mem_cons_self
      have hchildren := hnode.placedChildren docOrderDesc ho.tree
      have hrest := ih (h.step docOrderDesc ho) (size_step docOrderDesc hsteps)
      rw [visits, List.filter_append]
      by_cases hp : p = path
      · subst hp
        have hnone : ¬∃ x ∈ (placedChildren view docOrderDesc p node).reverse ++ stack,
            x.1 <:+ p := by
          rintro ⟨x, hx, hsuffix⟩
          rcases List.mem_append.mp hx with hx | hx
          · obtain ⟨key, -, hkey, -⟩ := forall₂_exists_left hchildren (List.mem_reverse.mp hx)
            have hlength := hsuffix.length_le
            rw [show x.1 = key.toKey view.env :: p from hkey, List.length_cons] at hlength
            omega
          · exact ((List.pairwise_cons.mp h.apart).1 x hx).2 hsuffix
        rw [if_neg hnone] at hrest
        rw [if_pos ⟨_, List.mem_cons_self, List.suffix_rfl⟩, List.forall₂_nil_left_iff.mp hrest,
          List.append_nil, List.filter_eq_self.mpr fun x hx => ?_]
        · exact hchildren
        · obtain ⟨key, -, hkey, -⟩ := forall₂_exists_left hchildren hx
          simp [hkey]
      · have hfirst : (placedChildren view docOrderDesc path node).filter
            (fun x => decide (ViewIndex.IsChild p x.1)) = [] := by
          refine List.filter_eq_nil_iff.mpr fun x hx => ?_
          obtain ⟨key, -, hkey, -⟩ := forall₂_exists_left hchildren hx
          simp [hkey, Ne.symm hp]
        rw [hfirst, List.nil_append]
        by_cases hempty : s.getChildEntries view.env p = []
        · rw [hempty, ite_self] at hrest ⊢
          exact hrest
        · rwa [if_congr (below_step_iff docOrderDesc ho hnode stack hp hempty) rfl rfl]

end Loop

end MindooDB
