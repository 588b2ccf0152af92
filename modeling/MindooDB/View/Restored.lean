import MindooDB.View.Restoration

/-!
# View/Restored — the restored tree

The restored tree has a copy of every entry at its path, siblings hung up in their order, and lists
every entry once.  Where the copies are twins of what they were copied from, the restored view is a
twin of the one that was written, and batches keep it like any other (`Restored.twins`).
-/

namespace MindooDB

open List ViewIndex VirtualView

variable {view : VirtualView} {s t : ViewIndex} {p : EntryPath} {e : VirtualViewEntryData}

/-! ## Hanging up copies -/

section Hanging

variable {l : List (EntryPath × VirtualViewEntryData)}

theorem entries_foldl_restoreEntry (l : List (EntryPath × VirtualViewEntryData)) (s : ViewIndex) :
    (l.foldl (fun s x => restoreEntry s x.1 x.2) s).entries
      = l.foldl (fun m x => m.set x.1 x.2) s.entries :=
  (foldl_hom entries fun _ _ => rfl).symm

theorem counter_foldl_restoreEntry (l : List (EntryPath × VirtualViewEntryData)) (s : ViewIndex) :
    (l.foldl (fun s x => restoreEntry s x.1 x.2) s).categoryIdCounter = s.categoryIdCounter := by
  induction l generalizing s with
  | nil => rfl
  | cons x l ih => exact ih (restoreEntry s x.1 x.2)

/-- **Every entry is listed** under its document, in the order in which they are hung up. -/
theorem listedUnder_foldl_restoreEntry (l : List (EntryPath × VirtualViewEntryData))
    (s : ViewIndex) (key : JSString) :
    (l.foldl (fun s x => restoreEntry s x.1 x.2) s).listedUnder key
      = s.listedUnder key ++ (l.filter fun x => scopedDocIdKey x.2.origin x.2.docId = key).map
          fun x => occurrenceOf x.1 x.2 := by
  induction l generalizing s with
  | nil => simp
  | cons x l ih =>
    rw [foldl_cons, ih, filter_cons]
    by_cases hkey : scopedDocIdKey x.2.origin x.2.docId = key
    · have hset : (restoreEntry s x.1 x.2).listedUnder key
          = s.listedUnder key ++ [occurrenceOf x.1 x.2] := by
        subst hkey
        rw [listedUnder, restoreEntry, LinkedMap.get?_set_self, Option.getD_some]
      rw [hset, if_pos (by simpa using hkey), map_cons, append_assoc]
      rfl
    · have hset : (restoreEntry s x.1 x.2).listedUnder key = s.listedUnder key := by
        rw [listedUnder, restoreEntry, LinkedMap.get?_set_of_ne _ _ (fun heq => hkey heq.symm)]
      rw [hset, if_neg (by simpa using hkey)]

end Hanging

/-! ## Copies -/

variable (view) in
/-- The entry that is restored for another. -/
def copyOf (e : VirtualViewEntryData) : VirtualViewEntryData :=
  view.restoredEntry view.docOrderDescending (e.serialize.jsonCopy view.env.toISOString)

/-- **The copies of a tree**: the root first, and all siblings in their order. -/
structure Copies (view : VirtualView) (s : ViewIndex)
    (l : List (EntryPath × VirtualViewEntryData)) : Prop where
  root : ∃ e rest, s.entries.get? [] = some e ∧ l = ([], copyOf view e) :: rest
    ∧ ∀ x ∈ rest, x.1 ≠ []
  children : ∀ p, List.Forall₂
    (fun key x => x.1 = key.toKey view.env :: p
      ∧ ∃ e, s.entries.get? x.1 = some e ∧ x.2 = copyOf view e)
    (s.getChildEntries view.env p) (l.filter fun x => decide (IsChild p x.1))

namespace Copies

variable {l : List (EntryPath × VirtualViewEntryData)}

/-- **What is copied.** -/
theorem mem_iff (h : Copies view s l) (ho : Orderly view.env s) {a : VirtualViewEntryData} :
    (p, a) ∈ l ↔ ∃ e, s.entries.get? p = some e ∧ a = copyOf view e := by
  cases p with
  | nil =>
    obtain ⟨e, rest, he, rfl, hrest⟩ := h.root
    constructor
    · intro hmem
      rcases mem_cons.mp hmem with heq | hmem
      · exact ⟨e, he, (Prod.mk.inj heq).2⟩
      · exact absurd rfl (hrest _ hmem)
    · rintro ⟨e', he', rfl⟩
      obtain rfl := Option.some.inj (he.symm.trans he')
      exact mem_cons_self
  | cons k p =>
    have hfilter : (k :: p, a) ∈ l ↔ (k :: p, a) ∈ l.filter fun x => decide (IsChild p x.1) := by
      rw [mem_filter, decide_eq_true_eq, isChild_cons]
      exact (and_iff_left rfl).symm
    rw [hfilter]
    constructor
    · intro hmem
      obtain ⟨key, -, -, hcopy⟩ := forall₂_exists_left (h.children p) hmem
      exact hcopy
    · rintro ⟨e, he, rfl⟩
      obtain ⟨key, hkey, htoKey⟩ := mem_map.mp
        ((mem_getChildEntries_iff ho.cached ho.tree).mpr ⟨e, he⟩)
      obtain ⟨x, hx, hpath, e', he', hcopy⟩ := forall₂_exists_right (h.children p) hkey
      rw [hpath, htoKey] at he'
      obtain rfl := Option.some.inj (he.symm.trans he')
      have hxeq : x = (k :: p, copyOf view e) := Prod.ext (by rw [hpath, htoKey]) hcopy
      exact hxeq ▸ hx

theorem map_fst_children (h : Copies view s l) (p : EntryPath) :
    (l.filter fun x => decide (IsChild p x.1)).map Prod.fst
      = (s.getChildEntries view.env p).map fun key => key.toKey view.env :: p :=
  map_eq_of_forall₂ (h.children p) fun _ _ hx => hx.1

/-- No path comes twice. -/
theorem nodup (h : Copies view s l) (ho : Orderly view.env s) : (l.map Prod.fst).Nodup := by
  obtain ⟨e, rest, -, rfl, hrest⟩ := h.root
  rw [map_cons, nodup_cons]
  refine ⟨fun hmem => ?_, nodup_iff_count_le_one.mpr fun q => ?_⟩
  · obtain ⟨x, hx, hnil⟩ := mem_map.mp hmem
    exact hrest x hx hnil
  · cases q with
    | nil =>
      rw [count_eq_zero_of_not_mem]
      · exact Nat.zero_le 1
      · intro hmem
        obtain ⟨x, hx, hnil⟩ := mem_map.mp hmem
        exact hrest x hx hnil
    | cons k q =>
      -- siblings have different keys
      have hkeys := nodup_getChildEntries ho.cached ho.tree q
      have hinjective : Function.Injective fun k : EntryKey => k :: q :=
        fun a b hab => (List.cons.inj hab).1
      have hnodup := hkeys.map hinjective
      rw [map_map] at hnodup
      have hchildren := h.map_fst_children q
      rw [filter_cons_of_neg (by simp [IsChild])] at hchildren
      have hfilter : (rest.map Prod.fst).filter (fun q' => decide (IsChild q q'))
          = (rest.filter fun x => decide (IsChild q x.1)).map Prod.fst := by
        rw [filter_map]
        rfl
      rw [← count_filter (p := fun q' => decide (IsChild q q')) (by simp), hfilter, hchildren]
      exact nodup_iff_count_le_one.mp hnodup (k :: q)

end Copies

/-! ## The restored view -/

variable (view) in
/-- **A view restored from the snapshot** that it has written. -/
def restoredFrom (s : ViewIndex) : ViewIndex :=
  (view.restoreFromTreeSnapshot ((view.exportCacheState s).jsonCopy view.env.toISOString)).2

theorem visits_ne_nil {docOrderDesc : List Bool} {steps : ℕ} {stack : PlacedNodes}
    {x : EntryPath × SerializedVirtualViewNode} (hx : x ∈ visits view docOrderDesc steps stack) :
    x.1 ≠ [] := by
  induction steps generalizing stack with
  | zero => exact absurd hx (by cases stack <;> simp [visits])
  | succ steps ih =>
    cases stack with
    | nil => exact absurd hx (by simp [visits])
    | cons y stack =>
      obtain ⟨path, node⟩ := y
      rw [visits] at hx
      rcases mem_append.mp hx with hx | hx
      · obtain ⟨child, -, rfl⟩ := mem_map.mp hx
        exact cons_ne_nil _ _
      · exact ih hx

variable (view) in
/-- The tree that is read from the snapshot. -/
def treeRead (s : ViewIndex) : SerializedVirtualViewNode :=
  (view.exportCacheState s).tree.jsonCopy view.env.toISOString

variable (view) in
/-- What the restoration hangs up. -/
def entriesRead (s : ViewIndex) : List (EntryPath × VirtualViewEntryData) :=
  ([], view.restoredEntry view.docOrderDescending (treeRead view s).entry)
    :: (visits view view.docOrderDescending (treeRead view s).size [([], treeRead view s)]).map
      fun x => (x.1, view.restoredEntry view.docOrderDescending x.2.entry)

theorem restoredFrom_eq (s : ViewIndex) : restoredFrom view s
    = (entriesRead view s).foldl (fun s x => restoreEntry s x.1 x.2)
      { entries := ∅, categoryIdCounter := s.categoryIdCounter } := by
  rw [entriesRead, foldl_cons, foldl_map]
  exact restoreStack_eq _ _ _

/-- **What the restoration hangs up** are the copies of the tree. -/
theorem copies_entriesRead (ho : Orderly view.env s) : Copies view s (entriesRead view s) := by
  obtain ⟨root, hroot, -⟩ := ho.tree.root
  have hmirrors : Mirrors view.env s [] (treeRead view s) := by
    rw [treeRead, exportCacheState, getRoot, hroot, Option.getD_some]
    refine mirrors_serializeNode ho hroot fun q a ha _ => ?_
    have hlt := ho.tree.length_lt_size ha
    rw [length_nil]
    omega
  obtain ⟨e, he, hentry⟩ := hmirrors.entry
  have hstack : StackOf view s [([], treeRead view s)] :=
    ⟨fun x hx => by rw [mem_singleton.mp hx]; exact hmirrors, pairwise_singleton _ _⟩
  refine ⟨⟨e, _, he, by rw [entriesRead, hentry]; rfl, fun x hx => ?_⟩, fun p => ?_⟩
  · obtain ⟨y, hy, rfl⟩ := mem_map.mp hx
    exact visits_ne_nil hy
  · have hsize : ([([], treeRead view s)].map fun x : EntryPath × SerializedVirtualViewNode =>
        x.2.size).sum ≤ (treeRead view s).size := by
      rw [map_singleton, sum_singleton]
    have hvisits := children_of_visits view.docOrderDescending ho hstack hsize p
    rw [if_pos ⟨_, mem_singleton_self _, nil_suffix⟩] at hvisits
    rw [entriesRead, filter_cons_of_neg (by simp [IsChild]), filter_map]
    refine forall₂_map_right_iff.mpr (hvisits.imp fun key x hx => ⟨hx.1, ?_⟩)
    obtain ⟨a, ha, hcopy⟩ := hx.2.entry
    exact ⟨a, ha, by rw [hcopy]; rfl⟩

/-! ## What is restored -/

/-- **The restored view** as the copies make it. -/
structure Restored (view : VirtualView) (s t : ViewIndex) : Prop where
  get? : ∀ p, t.entries.get? p = (s.entries.get? p).map (copyOf view)
  childKeys : ∀ p, List.Forall₂
    (fun key key' => ∃ e, s.entries.get? (key.toKey view.env :: p) = some e
      ∧ key' = (copyOf view e).sortKey)
    (s.getChildEntries view.env p) (t.childKeys p)
  listed : ∀ key o, o ∈ t.listedUnder key ↔ ∃ p e, s.entries.get? p = some e
    ∧ scopedDocIdKey e.origin e.docId = key ∧ o = occurrenceOf p (copyOf view e)
  counter : t.categoryIdCounter = s.categoryIdCounter

theorem restored_restoredFrom (ho : Orderly view.env s) :
    Restored view s (restoredFrom view s) := by
  have hcopies := copies_entriesRead ho
  have htoList : (restoredFrom view s).entries.toList = entriesRead view s := by
    rw [restoredFrom_eq, entries_foldl_restoreEntry,
      LinkedMap.foldl_set_of_nodup _ _ (by simpa using hcopies.nodup ho)]
    rfl
  refine ⟨fun p => ?_, fun p => ?_, fun key o => ?_, ?_⟩
  · refine Option.ext fun a => ?_
    rw [← LinkedMap.mem_toList_iff, htoList, hcopies.mem_iff ho, Option.map_eq_some_iff]
    exact exists_congr fun e => and_congr_right fun _ => eq_comm
  · have hkeys : (restoredFrom view s).childKeys p
        = ((entriesRead view s).filter fun x => decide (IsChild p x.1)).map
            fun x => x.2.sortKey := by
      rw [childKeys, LinkedMap.childValues, htoList, ← filterMap_eq_map, filterMap_filter]
      refine filterMap_congr fun x _ => ?_
      have hchild : decide (IsChild p x.1) = decide (x.1 ≠ [] ∧ x.1.tail = p) := rfl
      rw [hchild]
      split <;> simp_all
    rw [hkeys]
    refine forall₂_map_right_iff.mpr ((hcopies.children p).imp ?_)
    rintro key x ⟨hpath, e, he, hcopy⟩
    exact ⟨e, hpath ▸ he, by rw [hcopy]⟩
  · rw [restoredFrom_eq, listedUnder_foldl_restoreEntry, mem_append, mem_map]
    constructor
    · rintro (hnone | ⟨⟨p, a⟩, hx, rfl⟩)
      · exact absurd hnone (by simp [listedUnder])
      · obtain ⟨hx, hkey⟩ := mem_filter.mp hx
        obtain ⟨e, he, rfl⟩ := (hcopies.mem_iff ho).mp hx
        exact ⟨p, e, he, of_decide_eq_true hkey, rfl⟩
    · rintro ⟨p, e, he, hkey, rfl⟩
      refine .inr ⟨(p, copyOf view e), mem_filter.mpr
        ⟨(hcopies.mem_iff ho).mpr ⟨e, he, rfl⟩, ?_⟩, rfl⟩
      rw [decide_eq_true_eq]
      exact hkey
  · rw [restoredFrom_eq, counter_foldl_restoreEntry]

/-! ## Twins -/

/-- **What a batch relies on** of a document in a tree. -/
structure KnownDocument (k : EntryKey) (e : VirtualViewEntryData) : Prop where
  scopedDocId : k.scopedDocId = scopedDocIdKey e.origin e.docId
  origin : e.origin ≠ ORIGIN_VIRTUALVIEW

/-- **A view whose copies are twins.** -/
structure Copyable (view : VirtualView) (s : ViewIndex) : Prop where
  maintained : Maintained view.env s
  twin : ∀ p e, s.entries.get? p = some e → TwinEntries view.env e (copyOf view e)
  known : ∀ k p e, s.entries.get? (k :: p) = some e → e.isCategory = false → KnownDocument k e

namespace Restored

section

variable (hr : Restored view s t)

include hr

theorem of_some (hget : s.entries.get? p = some e) :
    t.entries.get? p = some (copyOf view e) := by
  rw [hr.get?, hget, Option.map_some]

theorem some_of {a : VirtualViewEntryData} (hget : t.entries.get? p = some a) :
    ∃ e, s.entries.get? p = some e ∧ a = copyOf view e := by
  rw [hr.get?] at hget
  obtain ⟨e, he, rfl⟩ := Option.map_eq_some_iff.mp hget
  exact ⟨e, he, rfl⟩

/-- The children are hung up in their order. -/
theorem sameKeys (h : Copyable view s) (p : EntryPath) :
    List.Forall₂ (SameKey view.env) (s.getChildEntries view.env p) (t.childKeys p) := by
  have horderly := h.maintained.orderly
  have hmem : ∀ key ∈ s.getChildEntries view.env p, key ∈ s.childKeys p := fun key hkey =>
    (horderly.cached.perm_getChildEntries horderly.tree p).mem_iff.mp hkey
  refine ((forall₂_and_left _ _).mpr ⟨hmem, hr.childKeys p⟩).imp ?_
  rintro key key' ⟨hkey, e, he, rfl⟩
  obtain rfl := horderly.tree.eq_sortKey_of_mem he hkey rfl
  exact (h.twin _ e he).sortKey

theorem sorted_childKeys (h : Copyable view s) (hget : s.entries.get? p = some e) :
    (t.childKeys p).Pairwise fun a b => e.childrenComparator.compare view.env a b ≤ 0 :=
  pairwise_of_forall₂ (hr.sameKeys h p)
    (fun _ _ _ _ ha hb => (ha.compare_iff hb e.childrenComparator).mp) (h.maintained.sorted p e hget)

/-- So sorting them again changes nothing. -/
theorem getChildEntries (h : Copyable view s) (p : EntryPath) :
    t.getChildEntries view.env p = t.childKeys p := by
  cases hget : s.entries.get? p with
  | none =>
    have habsent : t.entries.get? p = none := by rw [hr.get?, hget, Option.map_none]
    have hempty := hr.sameKeys h p
    rw [getChildEntries_of_absent hget] at hempty
    rw [forall₂_nil_left_iff.mp hempty, getChildEntries_of_absent habsent]
  | some e =>
    have hcomparator := (h.twin p e hget).childrenComparator
    rw [ViewIndex.getChildEntries, hr.of_some hget]
    refine List.Pairwise.insertionSort_eq ?_
    rw [hcomparator]
    exact hr.sorted_childKeys h hget

/-- **The restored view is a twin** of the one that was written. -/
theorem twins (h : Copyable view s) : Twins view.env s t where
  of_some hget := ⟨_, hr.of_some hget, h.twin _ _ hget⟩
  some_of hget := by
    obtain ⟨e, he, rfl⟩ := hr.some_of hget
    exact ⟨e, he, h.twin _ e he⟩
  order p := by
    rw [hr.getChildEntries h]
    exact hr.sameKeys h p
  counter := hr.counter

end

/-! ## What batches rely on -/

theorem tree (hr : Restored view s t) (h : Copyable view s) : Tree view.env t where
  root := (hr.twins h).hasCategory_iff.mpr h.maintained.settled.tree.root
  parent hget := by
    obtain ⟨e, he, -⟩ := hr.some_of hget
    exact (hr.twins h).hasCategory_iff.mpr (h.maintained.settled.tree.parent he)
  key hget := by
    obtain ⟨e, he, rfl⟩ := hr.some_of hget
    exact (h.twin _ e he).sortKey.toKey.trans (h.maintained.settled.tree.key he)

theorem counts (hr : Restored view s t) (h : Copyable view s) : HasCounts t := by
  intro p a hget
  obtain ⟨e, he, rfl⟩ := hr.some_of hget
  have hcounts := h.maintained.settled.counts p e he
  have htally : ∀ (P : EntryPath → Prop) [DecidablePred P] kind, t.tally P kind = s.tally P kind := by
    refine fun P _ kind => (Twins.tally_eq P kind (fun {q a} ha => ?_) fun {q a'} ha' => ?_).symm
    · exact ⟨_, hr.of_some ha, (h.twin q a ha).isCategory⟩
    · obtain ⟨b, hb, rfl⟩ := hr.some_of ha'
      exact ⟨b, hb, (h.twin q b hb).isCategory⟩
  exact ⟨hcounts.childCategoryCount.trans (htally _ _).symm,
    hcounts.childDocumentCount.trans (htally _ _).symm,
    hcounts.childCount.trans (congrArg₂ _ (htally _ _).symm (htally _ _).symm),
    hcounts.descendantDocumentCount.trans (htally _ _).symm⟩

theorem filled (hr : Restored view s t) (h : Copyable view s) : Filled t [] := by
  intro k p a hget hcat hnot
  obtain ⟨e, he, rfl⟩ := hr.some_of hget
  obtain ⟨k', e', he'⟩ := h.maintained.settled.filled k p e he
    ((h.twin _ e he).isCategory.symm.trans hcat) hnot
  exact ⟨k', _, hr.of_some he'⟩

/-- The listed documents are those of the tree. -/
theorem listed_of_mem (hr : Restored view s t) (h : Copyable view s) {key : JSString}
    {o : Occurrence} (ho : o ∈ t.listedUnder key) (hdoc : o.isCategory = false) :
    ∃ k p e, s.entries.get? (k :: p) = some e ∧ e.isCategory = false ∧ k.scopedDocId = key
      ∧ o = occurrenceOf (k :: p) (copyOf view e) := by
  obtain ⟨p, e, he, rfl, rfl⟩ := (hr.listed key o).mp ho
  have hedoc : e.isCategory = false := (h.twin p e he).isCategory.symm.trans hdoc
  cases p with
  | nil =>
    obtain ⟨root, hroot, hcat⟩ := h.maintained.settled.tree.root
    obtain rfl := Option.some.inj (he.symm.trans hroot)
    exact nomatch hcat.symm.trans hedoc
  | cons k p => exact ⟨k, p, e, he, hedoc, (h.known k p e he hedoc).scopedDocId, rfl⟩

theorem listedUnder_eq {key : JSString} {occurrences : List Occurrence}
    (hget : t.entriesByDocId.get? key = some occurrences) : t.listedUnder key = occurrences := by
  rw [listedUnder, hget, Option.getD_some]

theorem lists (hr : Restored view s t) (h : Copyable view s) : HasLists t := by
  intro key occurrences hget o ho hdoc
  rw [← listedUnder_eq hget] at ho
  obtain ⟨k, p, e, he, hedoc, rfl, rfl⟩ := hr.listed_of_mem h ho hdoc
  have hkind := (h.maintained.settled.tree.isCategory_eq he).symm.trans hedoc
  exact ⟨⟨k, p, rfl, hkind, rfl⟩, (h.known k p e he hedoc).scopedDocId.symm⟩

theorem indexed (hr : Restored view s t) (h : Copyable view s) : Indexed t where
  ids k p a hget hcat := by
    obtain ⟨e, he, rfl⟩ := hr.some_of hget
    exact h.maintained.indexed.ids k p e he ((h.twin _ e he).isCategory.symm.trans hcat)
  plain k p a hget hdoc := by
    obtain ⟨e, he, rfl⟩ := hr.some_of hget
    exact h.maintained.indexed.plain k p e he ((h.twin _ e he).isCategory.symm.trans hdoc)
  find k p a hget hdoc := by
    obtain ⟨e, he, rfl⟩ := hr.some_of hget
    have hedoc := (h.twin _ e he).isCategory.symm.trans hdoc
    have hknown := h.known k p e he hedoc
    have hmem := (hr.listed k.scopedDocId _).mpr ⟨k :: p, e, he, hknown.scopedDocId.symm, rfl⟩
    cases hlist : t.entriesByDocId.get? k.scopedDocId with
    | none => exact absurd hmem (by simp [listedUnder, hlist])
    | some occurrences =>
      rw [listedUnder_eq hlist] at hmem
      exact ⟨occurrences, rfl, _, hmem, hdoc, hknown.origin, rfl, rfl⟩
  values key occurrences hkey hget o ho o' ho' hdoc hdoc' := by
    rw [← listedUnder_eq hget] at ho ho'
    obtain ⟨k, p, e, he, hedoc, hscoped, rfl⟩ := hr.listed_of_mem h ho hdoc
    obtain ⟨k', p', e', he', hedoc', hscoped', rfl⟩ := hr.listed_of_mem h ho' hdoc'
    obtain ⟨values, hvalues⟩ := h.maintained.indexed.exists_columnValues key
    have hcopy := (h.twin _ e he).columnValues.trans (hvalues k p e he hedoc hscoped)
    have hcopy' := (h.twin _ e' he').columnValues.trans (hvalues k' p' e' he' hedoc' hscoped')
    exact hcopy.trans hcopy'.symm

/-- **Batches keep a restored view like any other.** -/
theorem maintained (hr : Restored view s t) (h : Copyable view s) : Maintained view.env t where
  settled := ⟨hr.tree h, hr.counts h, hr.lists h, hr.filled h⟩
  sorted p a hget := by
    obtain ⟨e, he, rfl⟩ := hr.some_of hget
    rw [hr.getChildEntries h, (h.twin p e he).childrenComparator]
    exact hr.sorted_childKeys h he
  flushed := by
    refine ⟨fun p a sorted hget hcache => ?_, fun p k a hget => ?_⟩
    · obtain ⟨e, -, rfl⟩ := hr.some_of hget
      exact absurd hcache (by simp [copyOf, restoredEntry])
    · obtain ⟨e, he, rfl⟩ := hr.some_of hget
      obtain ⟨e₀, i, he₀, hi, hplace⟩ := h.maintained.flushed.numbered p k e he
      obtain rfl := Option.some.inj (he.symm.trans he₀)
      refine ⟨_, i, hget, hi, ?_⟩
      rw [(hr.twins h).map_getChildEntries]
      exact hplace
  unread k p a hget := by
    obtain ⟨e, -, rfl⟩ := hr.some_of hget
    rfl
  indexed := hr.indexed h

end Restored

end MindooDB
