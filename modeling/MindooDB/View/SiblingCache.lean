import MindooDB.Lib.OrdersOn
import MindooDB.Lib.Run
import MindooDB.View.Runs

/-!
# View/SiblingCache — the children of one entry and their remembered order

The child entry management of `VirtualViewEntryData.ts`, by itself.  The children are kept in the
order in which they were added; once they have been read they are kept sorted as well, and a child
that comes or goes is spliced in or out at a place that a binary search finds.  No caller can tell
this from sorting the children anew on every read (`answers_call`).

An entry is a reference: an element of a type that is compared by identity and shows its sort key.
The comparator is any that orders the sort keys it is asked about.
-/

namespace MindooDB

open List

/-- **The children of an entry.** -/
structure ChildEntries (α : Type*) where
  childEntriesBySortKey : LinkedMap EntryKey α := ∅
  sortedChildrenCache : Option (List α) := none
  childCount : ℤ := 0
  childCategoryCount : ℤ := 0
  childDocumentCount : ℤ := 0

namespace ChildEntries

variable {α : Type*} (env : Runtime) (sortKey : α → ViewEntrySortKey)
  (compare : ViewEntrySortKey → ViewEntrySortKey → ℤ)

/-- The comparator of the entries, `compare(a.sortKey, b.sortKey)`. -/
def compareEntries (a b : α) : ℤ := compare (sortKey a) (sortKey b)

def keyOf (entry : α) : EntryKey := (sortKey entry).toKey env

/-! ## The operations -/

def findSortedInsertIndex (sorted : List α) (entry : α) : ℕ :=
  partitionPoint (fun mid => sorted[mid]?.any fun e => compareEntries sortKey compare e entry ≤ 0)
    sorted.length 0 sorted.length

/-- `none` is `-1`. -/
def findSortedEntryIndex [DecidableEq α] (sorted : List α) (entry : α) : Option ℕ :=
  let lo := partitionPoint
    (fun mid => sorted[mid]?.any fun e => compareEntries sortKey compare e entry < 0)
    sorted.length 0 sorted.length
  (((sorted.drop lo).takeWhile fun e => compareEntries sortKey compare e entry = 0).findIdx?
    fun e => e = entry).map (· + lo)

variable (s : ChildEntries α)

def getChildEntries : ChildEntries α × List α :=
  match s.sortedChildrenCache with
  | some sorted => (s, sorted)
  | none =>
    let entries := sortBy (compareEntries sortKey compare) s.childEntriesBySortKey.values
    ({ s with sortedChildrenCache := some entries }, entries)

/-- A child, put in its place. -/
def addChildEntry (entry : α) : ChildEntries α × Bool :=
  let key := keyOf env sortKey entry
  if s.childEntriesBySortKey.has key then (s, false)
  else
    ({ childEntriesBySortKey := s.childEntriesBySortKey.set key entry
       sortedChildrenCache := s.sortedChildrenCache.map fun sorted =>
        sorted.insertIdx (findSortedInsertIndex sortKey compare sorted entry) entry
       childCount := s.childCount + 1
       childCategoryCount := s.childCategoryCount + if (sortKey entry).isCategory then 1 else 0
       childDocumentCount := s.childDocumentCount + if (sortKey entry).isCategory then 0 else 1 },
      true)

/-- A child goes. -/
def removeChildEntry [DecidableEq α] (s : ChildEntries α) (removed : ViewEntrySortKey) :
    ChildEntries α × Bool :=
  let key := removed.toKey env
  match s.childEntriesBySortKey.get? key with
  | none => (s, false)
  | some entry =>
    ({ childEntriesBySortKey := s.childEntriesBySortKey.delete key
       -- an entry that is not found throws the cache away
       sortedChildrenCache := s.sortedChildrenCache.bind fun sorted =>
        (findSortedEntryIndex sortKey compare sorted entry).map sorted.eraseIdx
       childCount := s.childCount - 1
       childCategoryCount := s.childCategoryCount - if (sortKey entry).isCategory then 1 else 0
       childDocumentCount := s.childDocumentCount - if (sortKey entry).isCategory then 0 else 1 },
      true)

/-! ## Calls and answers -/

/-- What is asked of an entry about its children. -/
inductive Call (α : Type*) where
  | addChildEntry (entry : α)
  | removeChildEntry (removed : ViewEntrySortKey)
  | getChildEntries

inductive Answer (α : Type*) where
  | changed (changed : Bool)
  | entries (entries : List α)

/-- One call on an entry as the code keeps its children. -/
def call [DecidableEq α] (s : ChildEntries α) : Call α → ChildEntries α × Answer α
  | .addChildEntry entry => Prod.map id .changed (s.addChildEntry env sortKey compare entry)
  | .removeChildEntry removed =>
    Prod.map id .changed (s.removeChildEntry env sortKey compare removed)
  | .getChildEntries => Prod.map id .entries (s.getChildEntries sortKey compare)

/-- **One call where the children are sorted anew on every read**: all there is to know is which
children there are, in the order they were added. -/
def callSorting (children : List α) : Call α → List α × Answer α
  | .addChildEntry entry =>
    if keyOf env sortKey entry ∈ children.map (keyOf env sortKey) then (children, .changed false)
    else (children ++ [entry], .changed true)
  | .removeChildEntry removed =>
    if removed.toKey env ∈ children.map (keyOf env sortKey) then
      (children.filter fun e => keyOf env sortKey e ≠ removed.toKey env, .changed true)
    else (children, .changed false)
  | .getChildEntries => (children, .entries (sortBy (compareEntries sortKey compare) children))

/-- The sort keys a call brings. -/
def Call.sortKeys : Call α → Set ViewEntrySortKey
  | .addChildEntry entry => {sortKey entry}
  | _ => ∅

/-! ## What is remembered -/

variable {env sortKey compare} {s} {K : Set ViewEntrySortKey} {children : List α}

/-- **What an entry holds of its children**: the map in the order they were added, the cache — if
there is one — their sort, and their numbers. -/
structure Holds (env : Runtime) (sortKey : α → ViewEntrySortKey)
    (compare : ViewEntrySortKey → ViewEntrySortKey → ℤ) (K : Set ViewEntrySortKey)
    (s : ChildEntries α) (children : List α) : Prop where
  listed : s.childEntriesBySortKey.toList = children.map fun e => (keyOf env sortKey e, e)
  cached : ∀ sorted, s.sortedChildrenCache = some sorted →
    sorted = sortBy (compareEntries sortKey compare) children
  involved : ∀ e ∈ children, sortKey e ∈ K
  childCount : s.childCount = children.length
  childCategoryCount : s.childCategoryCount = children.countP fun e => (sortKey e).isCategory
  childDocumentCount : s.childDocumentCount = children.countP fun e => !(sortKey e).isCategory

theorem holds_empty : Holds env sortKey compare K {} ([] : List α) :=
  ⟨rfl, nofun, nofun, rfl, rfl, rfl⟩

/-- What the search finds is the entry. -/
theorem getElem?_findSortedEntryIndex [DecidableEq α] {sorted : List α} {entry : α} {i : ℕ}
    (h : findSortedEntryIndex sortKey compare sorted entry = some i) : sorted[i]? = some entry := by
  obtain ⟨j, hj, rfl⟩ := Option.map_eq_some_iff.mp h
  obtain ⟨hlt, hentry, -⟩ := findIdx?_eq_some_iff_getElem.mp hj
  have hpre := prefix_iff_getElem?.mp (List.takeWhile_prefix _) j hlt
  rw [getElem?_drop, of_decide_eq_true hentry, Nat.add_comm] at hpre
  exact hpre

namespace Holds

variable (h : Holds env sortKey compare K s children)
include h

theorem values : s.childEntriesBySortKey.values = children := by
  rw [LinkedMap.values, h.listed, map_map]
  exact map_id _

theorem keys : s.childEntriesBySortKey.keys = children.map (keyOf env sortKey) := by
  rw [LinkedMap.keys, h.listed, map_map]
  rfl

theorem nodup : (children.map (keyOf env sortKey)).Nodup := h.keys ▸ s.childEntriesBySortKey.nodup_keys

theorem has {key : EntryKey} :
    s.childEntriesBySortKey.has key = true ↔ key ∈ children.map (keyOf env sortKey) := by
  rw [← h.keys, LinkedMap.mem_keys_iff_has]

theorem get? {key : EntryKey} {entry : α} (hget : s.childEntriesBySortKey.get? key = some entry) :
    entry ∈ children ∧ keyOf env sortKey entry = key := by
  have hmem := LinkedMap.mem_toList_iff.mpr hget
  rw [h.listed] at hmem
  obtain ⟨e, he, heq⟩ := mem_map.mp hmem
  obtain ⟨hkey, rfl⟩ := Prod.mk.inj heq
  exact ⟨he, hkey⟩

theorem getChildEntries :
    (s.getChildEntries sortKey compare).2 = sortBy (compareEntries sortKey compare) children
      ∧ Holds env sortKey compare K (s.getChildEntries sortKey compare).1 children := by
  rw [ChildEntries.getChildEntries]
  cases hcache : s.sortedChildrenCache with
  | some sorted => exact ⟨h.cached sorted hcache, h⟩
  | none =>
    simp only [h.values, true_and]
    exact { h with cached := fun sorted hsorted => (Option.some.inj hsorted).symm }

/-- **A child that comes** is spliced in where the sort puts the last one. -/
theorem addChildEntry (hcompare : OrdersOn K compare) {entry : α} (hentry : sortKey entry ∈ K)
    (hnew : keyOf env sortKey entry ∉ children.map (keyOf env sortKey)) :
    Holds env sortKey compare K (s.addChildEntry env sortKey compare entry).1
      (children ++ [entry]) := by
  have hnot : s.childEntriesBySortKey.has (keyOf env sortKey entry) = false := by
    rw [← Bool.not_eq_true, h.has]
    exact hnew
  have horders : OrdersOn _ (compareEntries sortKey compare) := hcompare.comap sortKey
  unfold ChildEntries.addChildEntry
  simp only [hnot, Bool.false_eq_true, if_false]
  refine ⟨?_, fun sorted hsorted => ?_, fun e he => ?_, ?_, ?_, ?_⟩
  · rw [LinkedMap.toList_set_of_notMem _ _ (h.keys ▸ hnew), h.listed, map_append]
    rfl
  · obtain ⟨before, hbefore, rfl⟩ := Option.map_eq_some_iff.mp hsorted
    obtain rfl := h.cached before hbefore
    have hin : ∀ e ∈ sortBy (compareEntries sortKey compare) children,
        e ∈ Set.preimage sortKey K := fun e he => h.involved e (mem_sortBy.mp he)
    rw [horders.sortBy_concat h.involved hentry]
    exact horders.insertIdx_partitionPoint hin hentry (pairwise_sortBy (horders.consistent h.involved))
  · rcases mem_append.mp he with he | he
    · exact h.involved e he
    · exact mem_singleton.mp he ▸ hentry
  · simp [h.childCount]
  · simp [h.childCategoryCount, countP_append, countP_singleton]
  · cases hcategory : (sortKey entry).isCategory <;>
      simp [h.childDocumentCount, countP_append, hcategory]

/-- **A child that goes** is found among those it ties with, and the others stay as they are. -/
theorem removeChildEntry [DecidableEq α] (hcompare : OrdersOn K compare)
    {removed : ViewEntrySortKey} {entry : α}
    (hget : s.childEntriesBySortKey.get? (removed.toKey env) = some entry) :
    Holds env sortKey compare K (s.removeChildEntry env sortKey compare removed).1
      (children.filter fun e => keyOf env sortKey e ≠ removed.toKey env) := by
  obtain ⟨hentry, hkey⟩ := h.get? hget
  have horders : OrdersOn _ (compareEntries sortKey compare) := hcompare.comap sortKey
  have hlisted : (s.childEntriesBySortKey.delete (removed.toKey env)).toList
      = (children.filter fun e => keyOf env sortKey e ≠ removed.toKey env).map
        fun e => (keyOf env sortKey e, e) := by
    simp only [LinkedMap.delete, h.listed, filter_map]
    rfl
  have hperm : children.Perm
      (entry :: children.filter fun e => keyOf env sortKey e ≠ removed.toKey env) := by
    have hvalues := s.childEntriesBySortKey.values_delete_perm hget
    rw [h.values, LinkedMap.values, hlisted, map_map] at hvalues
    exact hvalues.symm.trans (.of_eq (congrArg (entry :: ·) (map_id _)))
  unfold ChildEntries.removeChildEntry
  simp only [hget]
  refine ⟨hlisted, fun sorted hsorted => ?_, fun e he => h.involved e (mem_of_mem_filter he),
    ?_, ?_, ?_⟩
  · obtain ⟨before, hbefore, hout⟩ := Option.bind_eq_some_iff.mp hsorted
    obtain rfl := h.cached before hbefore
    obtain ⟨i, hi, rfl⟩ := Option.map_eq_some_iff.mp hout
    have hnd : ((sortBy (compareEntries sortKey compare) children).map (keyOf env sortKey)).Nodup :=
      ((perm_sortBy _ children).map _).nodup_iff.mpr h.nodup
    rw [eraseIdx_eq_filter hnd (getElem?_findSortedEntryIndex hi), horders.filter_sortBy h.involved,
      hkey]
  · rw [h.childCount, hperm.length_eq, length_cons]
    push_cast
    omega
  · rw [h.childCategoryCount, hperm.countP_eq, countP_cons]
    split <;> simp_all
  · rw [h.childDocumentCount, hperm.countP_eq, countP_cons]
    cases hcategory : (sortKey entry).isCategory <;> simp

/-- **One call** is answered as by sorting anew, and what is remembered stays right. -/
theorem call [DecidableEq α] (hcompare : OrdersOn K compare) {c : Call α}
    (hc : c.sortKeys sortKey ⊆ K) :
    (ChildEntries.call env sortKey compare s c).2
        = (callSorting env sortKey compare children c).2
      ∧ Holds env sortKey compare K (ChildEntries.call env sortKey compare s c).1
        (callSorting env sortKey compare children c).1 := by
  cases c with
  | addChildEntry entry =>
    have hentry : sortKey entry ∈ K := hc rfl
    by_cases hold : keyOf env sortKey entry ∈ children.map (keyOf env sortKey)
    · have hunchanged : s.addChildEntry env sortKey compare entry = (s, false) := by
        rw [ChildEntries.addChildEntry, if_pos (h.has.mpr hold)]
      simp only [ChildEntries.call, callSorting, hunchanged, if_pos hold]
      exact ⟨rfl, h⟩
    · have hchanged : (s.addChildEntry env sortKey compare entry).2 = true := by
        rw [ChildEntries.addChildEntry, if_neg fun hhas => hold (h.has.mp hhas)]
      simp only [ChildEntries.call, callSorting, if_neg hold, Prod.map_fst, Prod.map_snd, hchanged]
      exact ⟨trivial, h.addChildEntry hcompare hentry hold⟩
  | removeChildEntry removed =>
    by_cases hold : removed.toKey env ∈ children.map (keyOf env sortKey)
    · obtain ⟨entry, hget⟩ := LinkedMap.has_iff.mp (h.has.mpr hold)
      have hchanged : (s.removeChildEntry env sortKey compare removed).2 = true := by
        simp only [ChildEntries.removeChildEntry, hget]
      simp only [ChildEntries.call, callSorting, if_pos hold, Prod.map_fst, Prod.map_snd, hchanged]
      exact ⟨trivial, h.removeChildEntry hcompare hget⟩
    · have hnone : s.childEntriesBySortKey.get? (removed.toKey env) = none :=
        LinkedMap.has_eq_false_iff.mp (Bool.eq_false_iff.mpr fun hhas => hold (h.has.mp hhas))
      simp only [ChildEntries.call, callSorting, ChildEntries.removeChildEntry, hnone, if_neg hold]
      exact ⟨rfl, h⟩
  | getChildEntries =>
    obtain ⟨hanswer, hholds⟩ := h.getChildEntries
    simp only [ChildEntries.call, callSorting, Prod.map_fst, Prod.map_snd, hanswer]
    exact ⟨trivial, hholds⟩

end Holds

/-! ## Runs -/

/-- The sort keys that some calls bring. -/
def sortKeysOf (sortKey : α → ViewEntrySortKey) (calls : List (Call α)) : Set ViewEntrySortKey :=
  {key | ∃ c ∈ calls, key ∈ c.sortKeys sortKey}

/-- **The remembered order cannot be told from sorting on every read**, however children come and go
in between. -/
theorem answers_call [DecidableEq α] {calls : List (Call α)}
    (hcompare : OrdersOn (sortKeysOf sortKey calls) compare) :
    Run.answers (call env sortKey compare) {} calls
      = Run.answers (callSorting env sortKey compare) [] calls :=
  Run.answers_eq (fun _ _ _ h hc => h.call hcompare hc)
    (fun c hc _ hkey => ⟨c, hc, hkey⟩) holds_empty

/-- The categories of the numbers, compared by their tens. -/
def compareTens (a b : ViewEntrySortKey) : ℤ :=
  let tens (key : ViewEntrySortKey) : ℤ := match key.values with
    | [.number n] => n.num / 10
    | _ => 0
  compareByOrder (tens a) (tens b)

/-- A category for each number. -/
def numberKey (n : ℕ) : ViewEntrySortKey := categorySortKey (.number n)

/-- Categories that tie stay in the order they came, also when one of them goes. -/
theorem answers_call_tens :
    Run.answers (call plainRuntime numberKey compareTens) {}
        [.getChildEntries, .addChildEntry 12, .addChildEntry 25, .addChildEntry 11,
          .addChildEntry 14, .getChildEntries, .removeChildEntry (numberKey 11), .getChildEntries]
      = [.entries [], .changed true, .changed true, .changed true, .changed true,
          .entries [12, 11, 14, 25], .changed true, .entries [12, 14, 25]] :=
  (answers_call ((Orders.ofLinearOrder.comap _).ordersOn _)).trans (by rfl)

end ChildEntries

end MindooDB
