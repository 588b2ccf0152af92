import MindooDB.View.Runs

/-!
# View/Numbering — sorted children, sibling indexes and remembered positions

What an entry remembers of its sorted children is spliced at every change, and stays an arrangement
of the children in the tree (`Cached`), whatever the comparator does.

Between two flushes every entry whose parent is not waiting to be renumbered has the place that its
number says (`Placed`), and what an entry remembers of its position are the numbers on the way down
to it (`Remembered`).  A flush gives every marked entry's children their places (`Flushes`).
-/

namespace MindooDB

open LinkedMap ViewIndex VirtualViewEntryData

/-! ## Splicing -/

section Splice

variable (env : Runtime) (cmp : ViewEntrySortKeyComparator)

theorem perm_spliceIn (sorted : List ViewEntrySortKey) (key : ViewEntrySortKey) :
    (spliceIn env cmp sorted key).Perm (key :: sorted) :=
  List.perm_insertIdx _ _ (partitionPoint_le _ (Nat.zero_le _))

theorem perm_of_spliceOut {sorted sorted' : List ViewEntrySortKey} {key : ViewEntrySortKey}
    (h : spliceOut env cmp sorted key = some sorted') :
    ∃ a, a.toKey env = key.toKey env ∧ sorted.Perm (a :: sorted') := by
  obtain ⟨i, hi, rfl⟩ := Option.map_eq_some_iff.mp h
  obtain ⟨j, hj, rfl⟩ := Option.map_eq_some_iff.mp hi
  obtain ⟨hlt, hkey, -⟩ := List.findIdx?_eq_some_iff_getElem.mp hj
  -- the index of the scan, in the whole list
  have hpre := (List.prefix_iff_getElem?.mp (List.takeWhile_prefix _)) j hlt
  rw [List.getElem?_drop, Nat.add_comm] at hpre
  obtain ⟨hlt', hget⟩ := List.getElem?_eq_some_iff.mp hpre
  refine ⟨_, of_decide_eq_true hkey, ?_⟩
  rw [← hget]
  exact (List.getElem_cons_eraseIdx_perm hlt').symm

end Splice

/-! ## What a step leaves of an entry -/

/-- Two states of an entry: its place among its siblings, what it remembers of its position and of
its children. -/
structure SamePlace (e e' : VirtualViewEntryData) : Prop where
  siblingIndex : e'.siblingIndex = e.siblingIndex
  position : e'.position = e.position
  positionStr : e'.positionStr = e.positionStr
  sortedChildrenCache : e'.sortedChildrenCache = e.sortedChildrenCache

namespace SamePlace

theorem incrementDescendantCount (isCategory : Bool) (e : VirtualViewEntryData) :
    SamePlace e (e.incrementDescendantCount isCategory) := ⟨rfl, rfl, rfl, rfl⟩

theorem docUp (view : VirtualView) (values : ColumnValues) (e : VirtualViewEntryData) :
    SamePlace e (view.docUp values e) := by
  rw [VirtualView.docUp, VirtualView.addDocTotals_eq]
  exact ⟨rfl, rfl, rfl, rfl⟩

theorem docDown (view : VirtualView) (values : ColumnValues) (e : VirtualViewEntryData) :
    SamePlace e (view.docDown values e) := by
  rw [VirtualView.docDown, VirtualView.addDocTotals_eq]
  exact ⟨rfl, rfl, rfl, rfl⟩

theorem refl (e : VirtualViewEntryData) : SamePlace e e := ⟨rfl, rfl, rfl, rfl⟩

end SamePlace

/-- What the entries above a change do: they stay the same entries, at the same places. -/
structure LeavesPlaces (up : VirtualViewEntryData → VirtualViewEntryData) : Prop where
  entry : ∀ e, SameEntry e (up e)
  place : ∀ e, SamePlace e (up e)

namespace LeavesPlaces

theorem incrementDescendantCount (isCategory : Bool) :
    LeavesPlaces (·.incrementDescendantCount isCategory) :=
  ⟨SameEntry.incrementDescendantCount isCategory, SamePlace.incrementDescendantCount isCategory⟩

theorem docUp (view : VirtualView) (values : ColumnValues) : LeavesPlaces (view.docUp values) :=
  ⟨SameEntry.docUp view values, SamePlace.docUp view values⟩

theorem docDown (view : VirtualView) (values : ColumnValues) :
    LeavesPlaces (view.docDown values) :=
  ⟨SameEntry.docDown view values, SamePlace.docDown view values⟩

theorem unchanged : LeavesPlaces id := ⟨SameEntry.refl, SamePlace.refl⟩

end LeavesPlaces

/-! ## The cache -/

/-- The sort keys of the children, in the order in which they were hung up. -/
abbrev ViewIndex.childKeys (s : ViewIndex) (p : EntryPath) : List ViewEntrySortKey :=
  s.entries.childValues sortKey p

/-- **What is remembered of the sorted children** is an arrangement of the children. -/
def Cached (s : ViewIndex) : Prop :=
  ∀ p e sorted, s.entries.get? p = some e → e.sortedChildrenCache = some sorted →
    sorted.Perm (s.childKeys p)

section Steps

variable {env : Runtime} {s : ViewIndex} {child : VirtualViewEntryData}
  {up : VirtualViewEntryData → VirtualViewEntryData} {key : EntryKey} {parent : EntryPath}

theorem childKeys_hang (hfresh : s.entries.get? (child.sortKey.toKey env :: parent) = none)
    (hup : LeavesPlaces up) (p : EntryPath) : (s.hang env child up parent).childKeys p
      = s.childKeys p ++ if parent = p then [child.sortKey] else [] := by
  have hnot : child.sortKey.toKey env :: parent
      ∉ (s.entries.modify parent (ViewIndex.gainChild env child)).keys := by
    rw [keys_modify, notMem_keys_iff]
    exact hfresh
  rw [childKeys, hang, childValues_modifyUp fun e => (hup.entry e).sortKey,
    childValues_set_of_notMem hnot,
    LinkedMap.childValues_modify fun e => (SameEntry.gainChild env child e).sortKey]

theorem childKeys_unhang_of_ne (hup : LeavesPlaces up) {p : EntryPath} (hp : parent ≠ p) :
    (s.unhang env child up key parent).childKeys p = s.childKeys p := by
  rw [childKeys, unhang, childValues_modifyUp fun e => (hup.entry e).sortKey,
    LinkedMap.childValues_modify fun e => (SameEntry.loseChild env child e).sortKey,
    childValues_delete_of_ne hp]

theorem perm_childKeys_unhang (hget : s.entries.get? (key :: parent) = some child)
    (hup : LeavesPlaces up) : (child.sortKey ::
      (s.unhang env child up key parent).childKeys parent).Perm (s.childKeys parent) := by
  rw [childKeys, unhang, childValues_modifyUp fun e => (hup.entry e).sortKey,
    LinkedMap.childValues_modify fun e => (SameEntry.loseChild env child e).sortKey]
  have hperm := childValues_delete_perm (g := sortKey) hget parent
  rw [if_pos rfl] at hperm
  exact hperm

/-- What a sort key of a child stands for. -/
theorem Tree.mem_childKeys_iff (h : Tree env s) {p : EntryPath} {k : EntryKey} :
    k ∈ (s.childKeys p).map (·.toKey env) ↔ ∃ e, s.entries.get? (k :: p) = some e := by
  rw [List.mem_map]
  constructor
  · rintro ⟨sortKey, hmem, rfl⟩
    obtain ⟨k, e, he, rfl⟩ := mem_childValues.mp hmem
    rw [h.key he]
    exact ⟨e, he⟩
  · rintro ⟨e, he⟩
    exact ⟨e.sortKey, mem_childValues.mpr ⟨k, e, he, rfl⟩, h.key he⟩

theorem Tree.nodup_childKeys (h : Tree env s) (p : EntryPath) :
    ((s.childKeys p).map (·.toKey env)).Nodup := by
  rw [map_childValues]
  refine nodup_childValues fun k v k' v' hk hk' heq => ?_
  rw [← h.key hk, ← h.key hk']
  exact heq

/-- A child is told by its key. -/
theorem Tree.eq_sortKey_of_mem (h : Tree env s) {p : EntryPath} {e : VirtualViewEntryData}
    (hget : s.entries.get? (key :: p) = some e) {a : ViewEntrySortKey} (ha : a ∈ s.childKeys p)
    (hkey : a.toKey env = key) : a = e.sortKey := by
  obtain ⟨k, e', he', rfl⟩ := mem_childValues.mp ha
  obtain rfl := (h.key he').symm.trans hkey
  obtain rfl := Option.some.inj (hget.symm.trans he')
  rfl

theorem Cached.hang (h : Cached s) (hup : LeavesPlaces up)
    (hfresh : s.entries.get? (child.sortKey.toKey env :: parent) = none)
    (hnone : child.sortedChildrenCache = none) : Cached (s.hang env child up parent) := by
  intro p e' sorted hget hcache
  rw [childKeys_hang hfresh hup]
  rw [get?_hang] at hget
  split at hget
  · obtain rfl := Option.some.inj hget
    cases hnone.symm.trans hcache
  · obtain ⟨e, he, rfl⟩ := Option.map_eq_some_iff.mp hget
    have hsame : ((if p <:+ parent then up else id)
        ((if p = parent then ViewIndex.gainChild env child else id) e)).sortedChildrenCache
        = ((if p = parent then ViewIndex.gainChild env child else id) e).sortedChildrenCache := by
      split
      · exact (hup.place _).sortedChildrenCache
      · rfl
    rw [hsame] at hcache
    split at hcache
    · rename_i hp
      subst hp
      obtain ⟨before, hbefore, rfl⟩ := Option.map_eq_some_iff.mp hcache
      rw [if_pos rfl]
      exact (perm_spliceIn env _ before child.sortKey).trans
        (((h p e before he hbefore).cons child.sortKey).trans
          (List.perm_append_singleton child.sortKey (s.childKeys p)).symm)
    · rename_i hp
      rw [if_neg (Ne.symm hp), List.append_nil]
      exact h p e sorted he hcache

theorem Cached.unhang (h : Cached s) (htree : Tree env s) (hup : LeavesPlaces up)
    (hget : s.entries.get? (key :: parent) = some child) :
    Cached (s.unhang env child up key parent) := by
  intro p e' sorted hafter hcache
  rw [get?_unhang] at hafter
  split at hafter
  · cases hafter
  · obtain ⟨e, he, rfl⟩ := Option.map_eq_some_iff.mp hafter
    have hsame : ((if p <:+ parent then up else id)
        ((if p = parent then ViewIndex.loseChild env child else id) e)).sortedChildrenCache
        = ((if p = parent then ViewIndex.loseChild env child else id) e).sortedChildrenCache := by
      split
      · exact (hup.place _).sortedChildrenCache
      · rfl
    rw [hsame] at hcache
    split at hcache
    · rename_i hp
      subst hp
      obtain ⟨before, hbefore, hsplice⟩ := Option.bind_eq_some_iff.mp hcache
      obtain ⟨a, hkey, hperm⟩ := perm_of_spliceOut env _ hsplice
      have hchildren := h p e before he hbefore
      -- what is spliced out is the child itself
      have ha : a = child.sortKey := htree.eq_sortKey_of_mem hget
        (hchildren.mem_iff.mp (hperm.mem_iff.mpr List.mem_cons_self))
        (hkey.trans (htree.key hget))
      subst ha
      exact (List.perm_cons _).mp ((hperm.symm.trans hchildren).trans
        (perm_childKeys_unhang hget hup).symm)
    · rename_i hp
      rw [childKeys_unhang_of_ne hup (Ne.symm hp)]
      exact h p e sorted he hcache

end Steps

end MindooDB

namespace MindooDB

open LinkedMap ViewIndex VirtualViewEntryData

variable {env : Runtime} {s s' : ViewIndex}

/-! ## The sorted children -/

variable {p : EntryPath} {e : VirtualViewEntryData}

theorem getChildEntries_of_absent (h : s.entries.get? p = none) :
    s.getChildEntries env p = [] := by
  rw [getChildEntries, h]

theorem Tree.childKeys_of_absent (htree : Tree env s)
    (h : s.entries.get? p = none) : s.childKeys p = [] := by
  refine List.eq_nil_iff_forall_not_mem.mpr fun sortKey hmem => ?_
  obtain ⟨k, e, he, -⟩ := mem_childValues.mp hmem
  obtain ⟨e', he', -⟩ := htree.parent he
  exact nomatch h.symm.trans he'

theorem Cached.perm_getChildEntries (h : Cached s) (htree : Tree env s) (p : EntryPath) :
    (s.getChildEntries env p).Perm (s.childKeys p) := by
  cases hget : s.entries.get? p with
  | none => rw [getChildEntries_of_absent hget, htree.childKeys_of_absent hget]
  | some e =>
    rw [getChildEntries, hget]
    cases hcache : e.sortedChildrenCache with
    | none => simpa only [hcache, Option.getD_none] using perm_sortBy _ _
    | some sorted => simpa only [hcache, Option.getD_some] using h p e sorted hget hcache

/-- **The sorted children are the children of the tree.** -/
theorem mem_getChildEntries_iff (h : Cached s) (htree : Tree env s)
    {k : EntryKey} : k ∈ (s.getChildEntries env p).map (·.toKey env)
      ↔ ∃ e, s.entries.get? (k :: p) = some e := by
  rw [((h.perm_getChildEntries htree p).map _).mem_iff]
  exact htree.mem_childKeys_iff

/-- Each of them is listed once. -/
theorem nodup_getChildEntries (h : Cached s) (htree : Tree env s) (p : EntryPath) :
    ((s.getChildEntries env p).map (·.toKey env)).Nodup :=
  ((h.perm_getChildEntries htree p).map _).nodup_iff.mpr (htree.nodup_childKeys p)

theorem getChildEntries_congr {e' : VirtualViewEntryData}
    (hget : s.entries.get? p = some e) (hget' : s'.entries.get? p = some e')
    (hcache : e'.sortedChildrenCache = e.sortedChildrenCache)
    (hcomparator : e'.childrenComparator = e.childrenComparator)
    (hkeys : s'.childKeys p = s.childKeys p) :
    s'.getChildEntries env p = s.getChildEntries env p := by
  rw [getChildEntries, getChildEntries, hget, hget']
  simp only [hcache, hcomparator]
  rw [childKeys, childKeys] at hkeys
  rw [hkeys]

/-! ## Places -/

/-- The number of an entry is its place, from 1 on, among the sorted children of its parent. -/
def HasPlace (env : Runtime) (s : ViewIndex) : EntryPath → Prop
  | [] => True
  | k :: p => ∃ e i, s.entries.get? (k :: p) = some e ∧ e.siblingIndex = i + 1
    ∧ ((s.getChildEntries env p).map (·.toKey env))[i]? = some k

/-- The children of an entry have their places. -/
def NumberedAt (env : Runtime) (s : ViewIndex) (p : EntryPath) : Prop :=
  ∀ k e, s.entries.get? (k :: p) = some e → HasPlace env s (k :: p)

/-- What an entry below the root remembers as its position are the numbers on the way down to it. -/
def Remembered (s : ViewIndex) : Prop :=
  ∀ k p e position, s.entries.get? (k :: p) = some e → e.position = some position →
    position = s.siblingIndexes (k :: p)

/-- **What holds between two flushes.** -/
structure Placed (env : Runtime) (s : ViewIndex) : Prop where
  cached : Cached s
  numbered : ∀ p, p ∉ s.pendingSiblingIndexFlush → NumberedAt env s p

/-- A step after which the entries still have their places, and remember the right positions if
they did before. -/
structure Keeps (env : Runtime) (s s' : ViewIndex) : Prop where
  placed : Placed env s'
  remembered : Remembered s → Remembered s'

theorem Keeps.trans {s'' : ViewIndex} (h : Keeps env s s') (h' : Keeps env s' s'') :
    Keeps env s s'' :=
  ⟨h'.placed, fun hr => h'.remembered (h.remembered hr)⟩

theorem siblingIndexes_congr (h : ∀ q, q ≠ [] → q <:+ p →
      (s'.entries.get? q).map (·.siblingIndex) = (s.entries.get? q).map (·.siblingIndex)) :
    s'.siblingIndexes p = s.siblingIndexes p := by
  induction p with
  | nil => rfl
  | cons k p ih =>
    rw [siblingIndexes, siblingIndexes, h (k :: p) (by simp) List.suffix_rfl,
      ih fun q hq hsuffix => h q hq (hsuffix.trans (List.suffix_cons k p))]

/-! ## Steps between two flushes -/

/-- **A step that changes the children of one entry**, and marks it to be renumbered. -/
structure ChangesChildren (env : Runtime) (parent : EntryPath) (s s' : ViewIndex) : Prop where
  old_or_new : ∀ {p e'}, s'.entries.get? p = some e' →
    (∃ e, s.entries.get? p = some e ∧ e'.siblingIndex = e.siblingIndex
      ∧ e'.position = e.position) ∨
      s.entries.get? p = none ∧ e'.position = none ∧ p.tail = parent
  children : ∀ {p e'}, p ≠ parent → s'.entries.get? p = some e' →
    s'.getChildEntries env p = s.getChildEntries env p
  pending : ∀ p, p ∈ s'.pendingSiblingIndexFlush ↔ p = parent ∨ p ∈ s.pendingSiblingIndexFlush

theorem ChangesChildren.keeps {parent : EntryPath} (hchange : ChangesChildren env parent s s')
    (htree : Tree env s) (htree' : Tree env s') (h : Placed env s) (hcached : Cached s') :
    Keeps env s s' := by
  refine ⟨⟨hcached, fun p hp k e' hget => ?_⟩, fun hremembered k p e' position hget hposition => ?_⟩
  · rw [hchange.pending, not_or] at hp
    rcases hchange.old_or_new hget with ⟨e, he, hindex, -⟩ | ⟨-, -, hparent⟩
    · obtain ⟨e₀, i, he₀, hi, hplace⟩ := h.numbered p hp.2 k e he
      obtain rfl := Option.some.inj (he.symm.trans he₀)
      obtain ⟨above, habove, -⟩ := htree'.parent hget
      refine ⟨e', i, hget, hindex.trans hi, ?_⟩
      rw [hchange.children hp.1 habove]
      exact hplace
    · exact absurd hparent hp.1
  · rcases hchange.old_or_new hget with ⟨e, he, -, hsame⟩ | ⟨-, hnone, -⟩
    · rw [hremembered k p e position he (hsame.symm.trans hposition)]
      refine (siblingIndexes_congr fun q _ hsuffix => ?_).symm
      obtain ⟨e₁, he₁⟩ := htree.exists_of_suffix he hsuffix
      obtain ⟨e₂, he₂⟩ := htree'.exists_of_suffix hget hsuffix
      rcases hchange.old_or_new he₂ with ⟨e₃, he₃, hindex, -⟩ | ⟨habsent, -⟩
      · rw [he₂, he₃, Option.map_some, Option.map_some, hindex]
      · exact nomatch habsent.symm.trans he₁
    · exact nomatch hnone.symm.trans hposition

section Steps

variable {child : VirtualViewEntryData} {up : VirtualViewEntryData → VirtualViewEntryData}
  {key : EntryKey} {parent : EntryPath}

/-- What a step leaves of an entry that was there. -/
theorem samePlace_changed (change : VirtualViewEntryData → VirtualViewEntryData)
    (hchange : ∀ e, (change e).siblingIndex = e.siblingIndex ∧ (change e).position = e.position)
    (hup : LeavesPlaces up) (p : EntryPath) (e : VirtualViewEntryData) :
    (changed change up parent p e).siblingIndex = e.siblingIndex
      ∧ (changed change up parent p e).position = e.position := by
  have hinner : ((if p = parent then change else id) e).siblingIndex = e.siblingIndex
      ∧ ((if p = parent then change else id) e).position = e.position := by
    split
    · exact hchange e
    · exact ⟨rfl, rfl⟩
  rw [changed]
  split
  · exact ⟨(hup.place _).siblingIndex.trans hinner.1, (hup.place _).position.trans hinner.2⟩
  · exact hinner

theorem changesChildren_hang (htree : Tree env s) (hup : LeavesPlaces up)
    (hfresh : s.entries.get? (child.sortKey.toKey env :: parent) = none)
    (hcache : child.sortedChildrenCache = none) (hposition : child.position = none) :
    ChangesChildren env parent s (s.hang env child up parent) := by
  refine ⟨fun {p e'} hget => ?_, fun {p e'} hp hget => ?_, fun p => LinkedSet.mem_add⟩
  · rw [get?_hang] at hget
    split at hget
    · rename_i hpath
      obtain rfl := Option.some.inj hget
      exact .inr ⟨hpath ▸ hfresh, hposition, hpath ▸ rfl⟩
    · obtain ⟨e, he, rfl⟩ := Option.map_eq_some_iff.mp hget
      exact .inl ⟨e, he, samePlace_changed (ViewIndex.gainChild env child) (fun _ => ⟨rfl, rfl⟩) hup p e⟩
  · have hkeys : (s.hang env child up parent).childKeys p = s.childKeys p := by
      rw [childKeys_hang hfresh hup, if_neg (Ne.symm hp), List.append_nil]
    have hget' := hget
    rw [get?_hang] at hget'
    split at hget'
    · rename_i hpath
      obtain rfl := Option.some.inj hget'
      -- what is new has nothing below it
      rw [hpath] at hkeys hget ⊢
      rw [htree.childKeys_of_absent hfresh] at hkeys
      rw [getChildEntries_of_absent hfresh, getChildEntries, hget]
      simp only [hcache, Option.getD_none]
      rw [childKeys] at hkeys
      rw [hkeys]
      rfl
    · obtain ⟨e, he, rfl⟩ := Option.map_eq_some_iff.mp hget'
      refine getChildEntries_congr he hget ?_ ?_ hkeys
      · split
        · exact (hup.place _).sortedChildrenCache
        · rfl
      · split
        · exact (hup.entry _).childrenComparator
        · rfl

theorem changesChildren_unhang (hup : LeavesPlaces up) :
    ChangesChildren env parent s (s.unhang env child up key parent) := by
  refine ⟨fun {p e'} hget => ?_, fun {p e'} hp hget => ?_, fun p => LinkedSet.mem_add⟩
  · rw [get?_unhang] at hget
    split at hget
    · cases hget
    · obtain ⟨e, he, rfl⟩ := Option.map_eq_some_iff.mp hget
      exact .inl ⟨e, he, samePlace_changed (ViewIndex.loseChild env child) (fun _ => ⟨rfl, rfl⟩) hup p e⟩
  · have hkeys : (s.unhang env child up key parent).childKeys p = s.childKeys p :=
      childKeys_unhang_of_ne hup (Ne.symm hp)
    have hget' := hget
    rw [get?_unhang] at hget'
    split at hget'
    · cases hget'
    · obtain ⟨e, he, rfl⟩ := Option.map_eq_some_iff.mp hget'
      refine getChildEntries_congr he hget ?_ ?_ hkeys
      · split
        · exact (hup.place _).sortedChildrenCache
        · rfl
      · split
        · exact (hup.entry _).childrenComparator
        · rfl

end Steps

/-! ## The phases of a batch before the flush -/

theorem Keeps.of_eq {s'' : ViewIndex} (h : Keeps env s s') (hentries : s''.entries = s'.entries)
    (hpending : s''.pendingSiblingIndexFlush = s'.pendingSiblingIndexFlush) : Keeps env s s'' := by
  obtain ⟨entries', lists', counter', pending'⟩ := s'
  obtain ⟨entries'', lists'', counter'', pending''⟩ := s''
  obtain rfl : entries'' = entries' := hentries
  obtain rfl : pending'' = pending' := hpending
  refine ⟨⟨h.placed.cached, h.placed.numbered⟩, fun hr k p e position hget hposition => ?_⟩
  rw [h.remembered hr k p e position hget hposition]
  exact siblingIndexes_congr fun _ _ _ => rfl

theorem Keeps.refl (h : Placed env s) : Keeps env s s := ⟨h, id⟩

namespace VirtualView

variable {view : VirtualView}

theorem Hangs.keeps {doc : DocEntry} {steps : List Placement} (h : view.Hangs doc steps s s')
    (htree : Tree view.env s) (hplaced : Placed view.env s) : Keeps view.env s s' := by
  have htree' := h.tree htree
  cases h with
  | document _ hparent hfresh =>
    have hup := LeavesPlaces.docUp view (definedValues doc.columnValues)
    exact (changesChildren_hang htree hup hfresh rfl rfl).keeps htree htree' hplaced
      (hplaced.cached.hang hup hfresh rfl)
  | @category itemName value descending indentLevel parent _ hparent hfresh _ counter =>
    have hup := LeavesPlaces.incrementDescendantCount true
    have hfresh' : s.entries.get? ((view.categoryEntryData itemName value descending indentLevel
      counter).sortKey.toKey view.env :: parent) = none := hfresh
    have hhang := (changesChildren_hang htree hup hfresh' rfl rfl).keeps htree
      ⟨htree'.root, htree'.parent, htree'.key⟩ hplaced (hplaced.cached.hang hup hfresh' rfl)
    exact hhang.of_eq rfl rfl

theorem HangsMany.keeps {doc : DocEntry} {steps : List Placement}
    (h : view.HangsMany doc steps s s') (htree : Tree view.env s) (hplaced : Placed view.env s) :
    Keeps view.env s s' := by
  induction h with
  | refl => exact Keeps.refl hplaced
  | tail hmany hstep ih => exact ih.trans (hstep.keeps (HangsMany.tree hmany htree) ih.placed)

theorem keeps_foldl_addOne (docs : List DocEntry) (htree : Tree view.env s)
    (hplaced : Placed view.env s) : Keeps view.env s (docs.foldl view.addOne s) := by
  induction docs generalizing s with
  | nil => exact Keeps.refl hplaced
  | cons doc docs ih =>
    obtain ⟨hmany, -⟩ := foldl_script_spec doc htree htree.root
      (List.Subset.refl (view.docScript doc))
    have hfirst : Keeps view.env s (view.addOne s doc) :=
      (hmany.keeps htree hplaced).of_eq rfl rfl
    exact hfirst.trans (ih (added_addOne htree doc).tree hfirst.placed)

theorem unhangsMany_keeps {occurrences : List Occurrence} (hlisted : Listed occurrences)
    (h : Relation.ReflTransGen (view.Unhangs occurrences) s s') (htree : Tree view.env s)
    (hplaced : Placed view.env s) : Keeps view.env s s' := by
  have hboth : Tree view.env s' ∧ Keeps view.env s s' := by
    induction h with
    | refl => exact ⟨htree, Keeps.refl hplaced⟩
    | tail _ hstep ih =>
      obtain ⟨htree₁, hkeeps⟩ := ih
      have htree₂ := hstep.tree hlisted htree₁
      refine ⟨htree₂, hkeeps.trans ?_⟩
      obtain ⟨ho, hdoc, -, hpath, hget⟩ := hstep
      have hup := LeavesPlaces.docDown view
      exact (changesChildren_unhang (hup _)).keeps htree₁ htree₂ hkeeps.placed
        (hkeeps.placed.cached.unhang htree₁ (hup _) hget)
  exact hboth.2

theorem dropsMany_keeps (h : Relation.ReflTransGen view.Drops s s') (htree : Tree view.env s)
    (hcounts : HasCounts s) (hplaced : Placed view.env s) : Keeps view.env s s' := by
  have hall : Tree view.env s' ∧ HasCounts s' ∧ Keeps view.env s s' := by
    induction h with
    | refl => exact ⟨htree, hcounts, Keeps.refl hplaced⟩
    | tail _ hdrop ih =>
      obtain ⟨htree₁, hcounts₁, hkeeps⟩ := ih
      obtain ⟨htree₂, hcounts₂, -⟩ := hdrop.spec htree₁ hcounts₁
      refine ⟨htree₂, hcounts₂, hkeeps.trans ?_⟩
      obtain ⟨hget, -, -⟩ := hdrop
      have hunhang := (changesChildren_unhang LeavesPlaces.unchanged).keeps htree₁
        ⟨htree₂.root, htree₂.parent, htree₂.key⟩ hkeeps.placed
        (hkeeps.placed.cached.unhang htree₁ LeavesPlaces.unchanged hget)
      exact hunhang.of_eq rfl rfl
  exact hall.2.2

/-- **A batch keeps places and positions**, up to the flush. -/
theorem keeps_beforeFlush (change : VirtualViewDataChange) (hs : Settled view.env s)
    (h : Placed view.env s) : Keeps view.env s (view.beforeFlush change s) := by
  have hremoved := removedBy_applyRemovals change hs
  have hadded := added_applyAdditions change hs
  have hremovals : Keeps view.env s (view.applyRemovals change s).1 :=
    (unhangsMany_keeps (hs.lists.listed change) (removed_takenOut change hs).steps
      hs.tree h).of_eq hremoved.entries (by rw [applyRemovals_eq]; rfl)
  have hadditions : Keeps view.env (view.applyRemovals change s).1
      (view.applyAdditions change (view.applyRemovals change s).1) := by
    rw [applyAdditions_eq]
    exact keeps_foldl_addOne _ hremoved.tree hremovals.placed
  exact (hremovals.trans hadditions).trans (dropsMany_keeps (dropped_beforeFlush change hs).steps
    hadded.tree (hadded.counts hremoved.counts) hadditions.placed)

end VirtualView

/-! ## The flush -/

/-- The place of a child among the sorted children, from 1 on. -/
def placeOf (env : Runtime) (s : ViewIndex) (p : EntryPath) (k : EntryKey) : ℕ :=
  ((s.getChildEntries env p).map (·.toKey env)).idxOf k + 1

theorem hasPlace_iff (h : Cached s) (htree : Tree env s) {k : EntryKey}
    (hget : s.entries.get? (k :: p) = some e) :
    HasPlace env s (k :: p) ↔ e.siblingIndex = placeOf env s p k := by
  have hmem := (mem_getChildEntries_iff h htree).mpr ⟨e, hget⟩
  have hlt := List.idxOf_lt_length_of_mem hmem
  constructor
  · rintro ⟨e₀, i, he₀, hi, hplace⟩
    obtain rfl := Option.some.inj (hget.symm.trans he₀)
    obtain ⟨hi', hki⟩ := List.getElem?_eq_some_iff.mp hplace
    rw [placeOf, ← hki, (nodup_getChildEntries h htree p).idxOf_getElem]
    exact hi
  · intro hindex
    refine ⟨e, _, hget, hindex, ?_⟩
    rw [List.getElem?_eq_getElem hlt, List.getElem_idxOf]

/-- Renumbering an entry: its position is forgotten when its number changes. -/
def renumber (index : ℕ) (x : ℕ × Option (List ℕ)) : ℕ × Option (List ℕ) :=
  if x.1 = index then x else (index, none)

theorem renumber_renumber (index : ℕ) (x : ℕ × Option (List ℕ)) :
    renumber index (renumber index x) = renumber index x := by
  rw [renumber]
  refine if_pos ?_
  rw [renumber]
  split
  · assumption
  · rfl

/-- The number of an entry and what it remembers of its position. -/
abbrev VirtualViewEntryData.numbering (e : VirtualViewEntryData) : ℕ × Option (List ℕ) :=
  (e.siblingIndex, e.position)

theorem numbering_setSiblingIndex (index : ℕ) (e : VirtualViewEntryData) :
    (e.setSiblingIndex index).numbering = renumber index e.numbering := by
  rw [setSiblingIndex, renumber]
  by_cases h : e.siblingIndex = index <;> simp [h]

/-- Number children, from `n + 1` on. -/
def numberFrom (env : Runtime) (path : EntryPath) (children : List ViewEntrySortKey) (n : ℕ)
    (s : ViewIndex) : ViewIndex :=
  (children.zipIdx n).foldl
    (fun s child => s.modify (child.1.toKey env :: path) (·.setSiblingIndex (child.2 + 1))) s

theorem get?_numberFrom {path : EntryPath} {children : List ViewEntrySortKey}
    (hnd : (children.map (·.toKey env)).Nodup) (n : ℕ) (s : ViewIndex) (q : EntryPath) :
    (numberFrom env path children n s).entries.get? q
      = match q with
        | [] => s.entries.get? []
        | k :: p =>
          if p = path ∧ k ∈ children.map (·.toKey env) then
            (s.entries.get? (k :: p)).map
              (·.setSiblingIndex (n + (children.map (·.toKey env)).idxOf k + 1))
          else s.entries.get? (k :: p) := by
  induction children generalizing n s with
  | nil => cases q <;> simp [numberFrom]
  | cons c children ih =>
    obtain ⟨hnot, hnd'⟩ := List.nodup_cons.mp hnd
    have hstep : numberFrom env path (c :: children) n s = numberFrom env path children (n + 1)
        (s.modify (c.toKey env :: path) (·.setSiblingIndex (n + 1))) := rfl
    rw [hstep, ih hnd']
    cases q with
    | nil => simp [ViewIndex.modify, LinkedMap.get?_modify]
    | cons k p =>
      simp only [ViewIndex.modify, LinkedMap.get?_modify, List.map_cons, List.mem_cons,
        List.cons.injEq]
      by_cases hp : p = path
      · by_cases hk : k = c.toKey env
        · subst hk
          simp [hp, hnot]
        · simp only [hp, hk, true_and, false_and, false_or, if_false,
            List.idxOf_cons_ne _ (Ne.symm hk)]
          have hshift : n + 1 + (children.map (·.toKey env)).idxOf k
              = n + ((children.map (·.toKey env)).idxOf k + 1) := by omega
          rw [hshift]
      · simp [hp]

theorem childKeys_modify {f : VirtualViewEntryData → VirtualViewEntryData} {q : EntryPath}
    (hf : ∀ e, (f e).sortKey = e.sortKey) (p : EntryPath) :
    (s.modify q f).childKeys p = s.childKeys p :=
  LinkedMap.childValues_modify hf q p

theorem sortKey_setSiblingIndex (index : ℕ) (e : VirtualViewEntryData) :
    (e.setSiblingIndex index).sortKey = e.sortKey :=
  (renumbered_setSiblingIndex index e).same.sortKey

theorem sortedChildrenCache_setSiblingIndex (index : ℕ) (e : VirtualViewEntryData) :
    (e.setSiblingIndex index).sortedChildrenCache = e.sortedChildrenCache := by
  rw [setSiblingIndex]
  split <;> rfl

theorem childKeys_numberFrom {path : EntryPath} (children : List ViewEntrySortKey) (n : ℕ)
    (s : ViewIndex) (p : EntryPath) :
    (numberFrom env path children n s).childKeys p = s.childKeys p := by
  induction children generalizing n s with
  | nil => rfl
  | cons c children ih =>
    exact (ih (n + 1) _).trans (childKeys_modify (sortKey_setSiblingIndex _) p)

/-- **Numbering the children of some entries.** -/
structure Flushes (env : Runtime) (paths : List EntryPath) (s s' : ViewIndex) : Prop where
  tree : Tree env s'
  cached : Cached s'
  children : ∀ p, s'.getChildEntries env p = s.getChildEntries env p
  entry : ∀ {k p e'}, s'.entries.get? (k :: p) = some e' → ∃ e, s.entries.get? (k :: p) = some e
    ∧ e'.numbering = if p ∈ paths then renumber (placeOf env s p k) e.numbering else e.numbering

/-- An entry that remembers its sorted children. -/
def remember (children : List ViewEntrySortKey) (e : VirtualViewEntryData) :
    VirtualViewEntryData :=
  { e with sortedChildrenCache := some children }

theorem getChildEntries_cached {children : List ViewEntrySortKey} (hget : s.entries.get? p = some e)
    (hcache : e.sortedChildrenCache = some children) : s.getChildEntries env p = children := by
  rw [getChildEntries, hget]
  simp only [hcache, Option.getD_some]

theorem flushes_flushSiblingIndexes (view : VirtualView) (htree : Tree view.env s)
    (hcached : Cached s) (path : EntryPath) :
    Flushes view.env [path] s (view.flushSiblingIndexes s path) := by
  have hnd := nodup_getChildEntries hcached htree path
  -- the entry itself remembers its children, then these are numbered
  have hget : ∀ q, (view.flushSiblingIndexes s path).entries.get? q
      = match q with
        | [] => (s.modify path (remember (s.getChildEntries view.env path))).entries.get? []
        | k :: p =>
          if p = path ∧ k ∈ (s.getChildEntries view.env path).map (·.toKey view.env) then
            ((s.modify path (remember (s.getChildEntries view.env path))).entries.get?
              (k :: p)).map (·.setSiblingIndex (placeOf view.env s path k))
          else (s.modify path (remember (s.getChildEntries view.env path))).entries.get?
            (k :: p) := by
    intro q
    refine (get?_numberFrom hnd 0 _ q).trans ?_
    simp only [Nat.zero_add]
    rfl
  have hkeys : ∀ p, (view.flushSiblingIndexes s path).childKeys p = s.childKeys p := fun p =>
    (childKeys_numberFrom _ 0 _ p).trans
      (childKeys_modify (f := remember (s.getChildEntries view.env path)) (fun _ => rfl) p)
  have hrenumbers : Relation.ReflTransGen Renumbers s (view.flushSiblingIndexes s path) :=
    renumbers_flushSiblingIndexes view s path
  have htree' := (renumbersMany_spec hrenumbers htree).1
  -- what the flush leaves of the caches
  have hcache : ∀ {p e'}, (view.flushSiblingIndexes s path).entries.get? p = some e' →
      ∃ e, s.entries.get? p = some e ∧ e'.childrenComparator = e.childrenComparator
        ∧ e'.sortedChildrenCache = if p = path then some (s.getChildEntries view.env path)
          else e.sortedChildrenCache := by
    intro p e' he'
    obtain ⟨e, he, hrenumbered⟩ := (renumbersMany_some hrenumbers).1 he'
    refine ⟨e, he, hrenumbered.same.childrenComparator, ?_⟩
    rw [hget] at he'
    cases p with
    | nil =>
      simp only [ViewIndex.modify, LinkedMap.get?_modify, he] at he'
      split at he'
      · rename_i hp
        obtain rfl := Option.some.inj he'
        exact (if_pos hp).symm
      · rename_i hp
        obtain rfl := Option.some.inj he'
        exact (if_neg hp).symm
    | cons k p =>
      simp only [ViewIndex.modify, LinkedMap.get?_modify, he] at he'
      split at he'
      · rename_i hchild
        have hne : k :: p ≠ path := by
          rw [hchild.1]
          exact fun heq => absurd (congrArg List.length heq) (by simp)
        rw [if_neg hne] at he' ⊢
        obtain rfl := Option.some.inj he'
        exact sortedChildrenCache_setSiblingIndex _ e
      · split at he'
        · rename_i hp
          obtain rfl := Option.some.inj he'
          exact (if_pos hp).symm
        · rename_i hp
          obtain rfl := Option.some.inj he'
          exact (if_neg hp).symm
  refine ⟨htree', ?_, fun p => ?_, fun {k p e'} he' => ?_⟩
  · intro p e' sorted he' hsorted
    obtain ⟨e, he, -, hc⟩ := hcache he'
    rw [hsorted] at hc
    rw [hkeys]
    split at hc
    · rename_i hp
      obtain rfl := Option.some.inj hc
      exact hp ▸ hcached.perm_getChildEntries htree p
    · exact hcached p e sorted he hc.symm
  · cases he : s.entries.get? p with
    | none =>
      have hnone : (view.flushSiblingIndexes s path).entries.get? p = none :=
        Option.eq_none_iff_forall_ne_some.mpr fun e' he' => by
          obtain ⟨e, he₀, -⟩ := hcache he'
          cases he.symm.trans he₀
      rw [getChildEntries_of_absent he, getChildEntries_of_absent hnone]
    | some e =>
      obtain ⟨e', he', -⟩ := (renumbersMany_some hrenumbers).2 he
      obtain ⟨e₀, he₀, hcomparator, hc⟩ := hcache he'
      obtain rfl := Option.some.inj (he.symm.trans he₀)
      split at hc
      · rename_i hp
        subst hp
        exact getChildEntries_cached he' hc
      · exact getChildEntries_congr he he' hc hcomparator (hkeys p)
  · obtain ⟨e, he, -⟩ := (renumbersMany_some hrenumbers).1 he'
    refine ⟨e, he, ?_⟩
    have hinner : ((s.modify path (remember (s.getChildEntries view.env path))).entries.get?
        (k :: p)).map (·.numbering) = some e.numbering := by
      rw [ViewIndex.modify, LinkedMap.get?_modify, he]
      split <;> rfl
    obtain ⟨e₁, he₁, hnumbering⟩ := Option.map_eq_some_iff.mp hinner
    rw [hget] at he'
    simp only [he₁] at he'
    simp only [List.mem_singleton]
    split at he'
    · rename_i hchild
      obtain rfl := Option.some.inj he'
      rw [if_pos hchild.1, numbering_setSiblingIndex, hnumbering, hchild.1]
    · rename_i hchild
      obtain rfl := Option.some.inj he'
      have hp : p ≠ path := by
        rintro rfl
        exact hchild ⟨rfl, (mem_getChildEntries_iff hcached htree).mpr ⟨e, he⟩⟩
      rw [if_neg hp, hnumbering]

theorem Flushes.append {paths paths' : List EntryPath} {s'' : ViewIndex}
    (h : Flushes env paths s s') (h' : Flushes env paths' s' s'') :
    Flushes env (paths ++ paths') s s'' where
  tree := h'.tree
  cached := h'.cached
  children p := (h'.children p).trans (h.children p)
  entry {k p e''} hget := by
    obtain ⟨e', he', hnumbering'⟩ := h'.entry hget
    obtain ⟨e, he, hnumbering⟩ := h.entry he'
    have hplace : placeOf env s' p k = placeOf env s p k := by
      rw [placeOf, placeOf, h.children]
    refine ⟨e, he, ?_⟩
    rw [hnumbering', hnumbering, hplace]
    by_cases hp : p ∈ paths <;> by_cases hp' : p ∈ paths' <;> simp [hp, hp', renumber_renumber]

/-- **The flush numbers the children of every marked entry.** -/
theorem flushes_processPendingSiblingIndexUpdates (view : VirtualView) (htree : Tree view.env s)
    (hcached : Cached s) : Flushes view.env s.pendingSiblingIndexFlush.toList s
      (view.processPendingSiblingIndexUpdates s) := by
  have hall : ∀ (paths : List EntryPath) (s : ViewIndex), Tree view.env s → Cached s →
      Flushes view.env paths s (paths.foldl view.flushSiblingIndexes s) := by
    intro paths
    induction paths with
    | nil => exact fun s htree hcached => ⟨htree, hcached, fun _ => rfl, fun hget =>
        ⟨_, hget, (if_neg List.not_mem_nil).symm⟩⟩
    | cons path paths ih =>
      intro s htree hcached
      have hfirst := flushes_flushSiblingIndexes view htree hcached path
      exact hfirst.append (ih _ hfirst.tree hfirst.cached)
  have h := hall s.pendingSiblingIndexFlush.toList s htree hcached
  exact ⟨⟨h.tree.root, h.tree.parent, h.tree.key⟩, h.cached, h.children, h.entry⟩

end MindooDB
