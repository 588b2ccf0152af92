import MindooDB.View.Arrivals
import MindooDB.View.Indexed

/-!
# View/Twins — two views that no batch tells apart

Twin views have entries of one `core` at the same paths, alike sort keys, and siblings in the same
order; their lists of occurrences and what they remember may differ.  Every step of a batch makes
twins of twins: what it hangs up and takes down it tells by the keys of the tree alone
(`Twins.applyChanges`), and a script never steps outside the categories it has entered
(`script_induction`).
-/

namespace MindooDB

open LinkedMap ViewIndex VirtualViewEntryData

namespace VirtualView

/-- The entry below which a step places. -/
def Placement.parent : Placement → EntryPath
  | .category _ _ _ _ parent => parent
  | .document parent => parent

section Scripts

variable (view : VirtualView) (doc : DocEntry) (s : ViewIndex)

/-- A state after some steps. -/
abbrev afterSteps (done : List Placement) : ViewIndex := done.foldl (view.place doc) s

variable {view doc s}

theorem hangsMany_place {step : Placement} (hparent : s.HasCategory step.parent) :
    view.HangsMany doc [step] s (view.place doc s step) := by
  cases step with
  | category | document => exact (place_spec doc List.mem_cons_self hparent).1

/-- **A property of the steps done so far** that every step below a category keeps. -/
def KeptByPlacing (view : VirtualView) (doc : DocEntry) (s : ViewIndex)
    (I : List Placement → Prop) : Prop :=
  ∀ done step, Tree view.env (view.afterSteps doc s done) →
    (view.afterSteps doc s done).HasCategory step.parent → I done → I (done ++ [step])

/-- Some more steps have been done, and the categories are still there. -/
structure GoesOn (view : VirtualView) (doc : DocEntry) (s : ViewIndex)
    (I : List Placement → Prop) (done done' : List Placement) : Prop where
  tree : Tree view.env (view.afterSteps doc s done')
  kept : I done'
  categories : ∀ p, (view.afterSteps doc s done).HasCategory p →
    (view.afterSteps doc s done').HasCategory p

variable {I : List Placement → Prop} {done done' done'' : List Placement} {parent : EntryPath}

theorem GoesOn.refl (htree : Tree view.env (view.afterSteps doc s done)) (h : I done) :
    GoesOn view doc s I done done := ⟨htree, h, fun _ h => h⟩

theorem GoesOn.trans (h : GoesOn view doc s I done done') (h' : GoesOn view doc s I done' done'') :
    GoesOn view doc s I done done'' :=
  ⟨h'.tree, h'.kept, fun p hp => h'.categories p (h.categories p hp)⟩

section

variable (hI : KeptByPlacing view doc s I)

include hI

theorem goesOn_step (step : Placement) (htree : Tree view.env (view.afterSteps doc s done))
    (h : I done) (hparent : (view.afterSteps doc s done).HasCategory step.parent) :
    GoesOn view doc s I done (done ++ [step]) := by
  have hmany : view.HangsMany doc [step] (view.afterSteps doc s done)
      (view.place doc (view.afterSteps doc s done) step) := hangsMany_place hparent
  have hafter : view.afterSteps doc s (done ++ [step])
      = view.place doc (view.afterSteps doc s done) step := List.foldl_append
  refine ⟨?_, hI done step htree hparent h, fun p hp => ?_⟩
  · rw [hafter]
    exact hmany.tree htree
  · rw [hafter]
    exact hmany.hasCategory hp

/-- A category is entered, and is there. -/
theorem goesOn_category (itemName : JSString) (value : ColumnValue) (descending : Bool)
    (indentLevel : ℕ) (htree : Tree view.env (view.afterSteps doc s done)) (h : I done)
    (hparent : (view.afterSteps doc s done).HasCategory parent) :
    GoesOn view doc s I done (done ++ [.category itemName value descending indentLevel parent])
      ∧ (view.afterSteps doc s (done ++ [.category itemName value descending indentLevel
          parent])).HasCategory (view.categoryPath value parent) := by
  have hafter : view.afterSteps doc s
        (done ++ [.category itemName value descending indentLevel parent])
      = view.place doc (view.afterSteps doc s done)
          (.category itemName value descending indentLevel parent) := List.foldl_append
  refine ⟨goesOn_step hI _ htree h hparent, ?_⟩
  rw [hafter]
  exact place_category_hasCategory doc htree (List.mem_singleton_self _) hparent

theorem goesOn_partsScript (column : VirtualViewColumn) (nextDescending : Bool)
    (parts : List JSString) (indentLevel : ℕ) (htree : Tree view.env (view.afterSteps doc s done))
    (h : I done) (hparent : (view.afterSteps doc s done).HasCategory parent) :
    GoesOn view doc s I done
        (done ++ view.partsScript column nextDescending parts indentLevel parent)
      ∧ (view.afterSteps doc s (done ++ view.partsScript column nextDescending parts indentLevel
          parent)).HasCategory (view.partsPath parts parent) := by
  induction parts generalizing done indentLevel parent with
  | nil =>
    rw [partsScript, List.append_nil]
    exact ⟨GoesOn.refl htree h, hparent⟩
  | cons part parts ih =>
    obtain ⟨hfirst, hcat⟩ := goesOn_category hI column.name (partValue part)
      (if parts.isEmpty then nextDescending else column.sorting = .DESCENDING) indentLevel htree h
      hparent
    obtain ⟨hrest, hbelow⟩ := ih (indentLevel + 1) hfirst.tree hfirst.kept hcat
    rw [List.append_assoc] at hrest hbelow
    exact ⟨hfirst.trans hrest, hbelow⟩

theorem goesOn_valueScript (column : VirtualViewColumn) (nextDescending : Bool)
    (value : ColumnValue) (htree : Tree view.env (view.afterSteps doc s done)) (h : I done)
    (hparent : (view.afterSteps doc s done).HasCategory parent) :
    GoesOn view doc s I done (done ++ view.valueScript column nextDescending value parent)
      ∧ (view.afterSteps doc s (done ++ view.valueScript column nextDescending value
          parent)).HasCategory (view.valuePath value parent) := by
  cases value with
  | string text =>
    rw [valueScript, valuePath]
    split
    · exact goesOn_partsScript hI column nextDescending _ 0 htree h hparent
    · exact goesOn_category hI _ _ _ _ htree h hparent
  | _ => exact goesOn_category hI _ _ _ _ htree h hparent

theorem goesOn_script (columns : List VirtualViewColumn)
    (htree : Tree view.env (view.afterSteps doc s done)) (h : I done)
    (hparent : (view.afterSteps doc s done).HasCategory parent) :
    GoesOn view doc s I done (done ++ view.script doc columns parent) := by
  induction columns generalizing done parent with
  | nil => exact goesOn_step hI (.document parent) htree h hparent
  | cons column columns ih =>
    rw [script]
    generalize valuesIn doc column = values
    induction values generalizing done with
    | nil =>
      rw [List.flatMap_nil, List.append_nil]
      exact GoesOn.refl htree h
    | cons value values ihv =>
      obtain ⟨henter, hcat⟩ := goesOn_valueScript hI column (firstDescending columns) value htree h
        hparent
      have hbelow := ih henter.tree henter.kept hcat
      have hboth := henter.trans hbelow
      have hrest := ihv hboth.tree hboth.kept (hboth.categories parent hparent)
      rw [List.flatMap_cons, ← List.append_assoc, ← List.append_assoc]
      exact hboth.trans hrest

/-- **What every step keeps, the script of a document keeps.** -/
theorem script_induction (htree : Tree view.env s) (h : I []) :
    I (view.docScript doc) := by
  have hall : GoesOn view doc s I [] ([] ++ view.docScript doc) :=
    goesOn_script hI view.categoryColumns htree h htree.root
  exact hall.kept

end

end Scripts

end VirtualView

end MindooDB

namespace MindooDB

open LinkedMap ViewIndex VirtualViewEntryData

/-! ## Splicing -/

section Splice

variable {env : Runtime} {cmp : ViewEntrySortKeyComparator} {l : List ViewEntrySortKey}

/-- **The binary search finds the entry that is to go.** -/
theorem spliceOut_eq_filter (h : Orders (cmp.compare env))
    (hl : l.Pairwise fun a b => cmp.compare env a b ≤ 0) (hnd : (l.map (·.toKey env)).Nodup)
    {key : ViewEntrySortKey} (hkey : key ∈ l) :
    spliceOut env cmp l key
      = some (l.filter fun a => decide (a.toKey env ≠ key.toKey env)) := by
  have hmem := h.mem_takeWhile_partitionPoint hl hkey
  rw [spliceOut, findSortedEntryIndex]
  cases hfound : ((l.drop (partitionPoint
      (fun mid => l[mid]?.any fun k => cmp.compare env k key < 0) l.length 0 l.length)).takeWhile
        fun k => cmp.compare env k key = 0).findIdx? fun k => k.toKey env = key.toKey env with
  | none => exact absurd rfl (of_decide_eq_false (List.findIdx?_eq_none_iff.mp hfound key hmem))
  | some j =>
    obtain ⟨hlt, htoKey, -⟩ := List.findIdx?_eq_some_iff_getElem.mp hfound
    have hpre := (List.prefix_iff_getElem?.mp (List.takeWhile_prefix _)) j hlt
    rw [List.getElem?_drop, Nat.add_comm] at hpre
    rw [Option.map_some, Option.map_some, eraseIdx_eq_filter hnd hpre, of_decide_eq_true htoKey]

end Splice

/-! ## The children after a step -/

section Steps

variable {env : Runtime} {s : ViewIndex} {child e : VirtualViewEntryData}
  {up : VirtualViewEntryData → VirtualViewEntryData} {key : EntryKey} {parent : EntryPath}

/-- **A child that is hung up** comes behind all siblings that come not after it. -/
theorem getChildEntries_hang (hcollates : env.Collates) (hsorted : SortedChildren env s)
    (hup : LeavesPlaces up)
    (hfresh : s.entries.get? (child.sortKey.toKey env :: parent) = none)
    (hget : s.entries.get? parent = some e) :
    (s.hang env child up parent).getChildEntries env parent
      = insertAfter (e.childrenComparator.compare env) child.sortKey
          (s.getChildEntries env parent) := by
  have horders := e.childrenComparator.orders_compare hcollates
  have hafter : (s.hang env child up parent).entries.get? parent
      = some (up (gainChild env child e)) := by
    rw [get?_hang, if_neg (by simp), hget, Option.map_some, if_pos List.suffix_rfl, if_pos rfl]
  have hkeys : (s.hang env child up parent).childKeys parent
      = s.childKeys parent ++ [child.sortKey] := by
    rw [childKeys_hang hfresh hup, if_pos rfl]
  have hpairwise := hsorted parent e hget
  rw [childKeys] at hkeys
  rw [getChildEntries, hafter]
  simp only [(hup.place _).sortedChildrenCache, (hup.entry _).childrenComparator, hkeys]
  rw [getChildEntries, hget] at hpairwise ⊢
  simp only [gainChild, changeChildCounts] at hpairwise ⊢
  cases hcache : e.sortedChildrenCache with
  | none =>
    simp only [Option.map_none, Option.getD_none]
    exact horders.sortBy_concat _ _
  | some l =>
    rw [hcache, Option.getD_some] at hpairwise
    simp only [Option.map_some, Option.getD_some]
    exact horders.insertIdx_partitionPoint hpairwise _

/-- **A child that is taken down** leaves its siblings as they stood. -/
theorem getChildEntries_unhang (hcollates : env.Collates) (htree : Tree env s)
    (hcached : Cached s) (hsorted : SortedChildren env s) (hup : LeavesPlaces up)
    (hget : s.entries.get? (key :: parent) = some child) :
    (s.unhang env child up key parent).getChildEntries env parent
      = (s.getChildEntries env parent).filter fun k => decide (k.toKey env ≠ key) := by
  obtain ⟨e, he, -⟩ := htree.parent hget
  have horders := e.childrenComparator.orders_compare hcollates
  have hafter : (s.unhang env child up key parent).entries.get? parent
      = some (up (loseChild env child e)) := by
    rw [get?_unhang, if_neg (by simp), he, Option.map_some, if_pos List.suffix_rfl, if_pos rfl]
  have hkeys : (s.unhang env child up key parent).childKeys parent
      = (s.childKeys parent).filter fun k => decide (k.toKey env ≠ key) := by
    rw [childKeys, unhang, childValues_modifyUp fun e => (hup.entry e).sortKey,
      childValues_modify fun e => (SameEntry.loseChild env child e).sortKey]
    exact childValues_delete_eq_filter (fun k v hv => htree.key hv) key
  have hpairwise := hsorted parent e he
  have hperm := hcached.perm_getChildEntries htree parent
  have hnd := nodup_getChildEntries hcached htree parent
  have hmem : child.sortKey ∈ s.getChildEntries env parent :=
    hperm.mem_iff.mpr (mem_childValues.mpr ⟨key, child, hget, rfl⟩)
  rw [childKeys] at hkeys
  rw [getChildEntries, hafter]
  simp only [(hup.place _).sortedChildrenCache, (hup.entry _).childrenComparator, hkeys]
  rw [getChildEntries, he] at hpairwise hnd hmem ⊢
  simp only [loseChild, changeChildCounts] at hpairwise hnd hmem ⊢
  cases hcache : e.sortedChildrenCache with
  | none =>
    simp only [Option.bind_none, Option.getD_none]
    exact (horders.filter_sortBy _ _).symm
  | some l =>
    rw [hcache, Option.getD_some] at hpairwise hnd hmem
    simp only [Option.bind_some, Option.getD_some,
      spliceOut_eq_filter horders hpairwise hnd hmem, htree.key hget]

end Steps

end MindooDB

namespace MindooDB

open LinkedMap ViewIndex VirtualViewEntryData VirtualView

/-! ## Entries -/

/-- **What an entry shows** but for its sort key, its number and the counts of its children, which
the tree tells; what it remembers of its children and its position is left out. -/
def VirtualViewEntryData.core (e : VirtualViewEntryData) : VirtualViewEntryData :=
  { e with
    sortKey := ⟨false, [], "", ""⟩
    sortedChildrenCache := none
    siblingIndex := 0
    position := none
    positionStr := none
    childCount := 0
    childCategoryCount := 0
    childDocumentCount := 0 }

section Core

variable (view : VirtualView) (env : Runtime)

theorem core_computeTotalColumnValues (columns : List VirtualViewColumn)
    (e : VirtualViewEntryData) : (e.computeTotalColumnValues env columns).core
      = e.core.computeTotalColumnValues env columns := by
  rw [computeTotalColumnValues, computeTotalColumnValues]
  exact (List.foldl_hom core fun _ _ => rfl).symm

theorem core_addDocTotals (values : ColumnValues) (sign : ℚ) (e : VirtualViewEntryData) :
    (view.addDocTotals values sign e).core = view.addDocTotals values sign e.core := by
  rw [VirtualView.addDocTotals, core_computeTotalColumnValues, VirtualView.addDocTotals]
  congr 1
  exact (List.foldl_hom core fun _ _ => rfl).symm

theorem core_docUp (values : ColumnValues) (e : VirtualViewEntryData) :
    (view.docUp values e).core = view.docUp values e.core := core_addDocTotals view _ _ _

theorem core_docDown (values : ColumnValues) (e : VirtualViewEntryData) :
    (view.docDown values e).core = view.docDown values e.core := by
  rw [VirtualView.docDown, VirtualView.docDown, ← core_addDocTotals]
  rfl

theorem core_gainChild (child e : VirtualViewEntryData) :
    (gainChild env child e).core = e.core := rfl

theorem core_loseChild (child e : VirtualViewEntryData) :
    (loseChild env child e).core = e.core := rfl

variable {change up : VirtualViewEntryData → VirtualViewEntryData}

theorem core_changed {up' : VirtualViewEntryData → VirtualViewEntryData}
    (hchange : ∀ e, (change e).core = e.core) (hup : ∀ e, (up e).core = up' e.core)
    (parent p : EntryPath) (e : VirtualViewEntryData) :
    (changed change up parent p e).core = (if p <:+ parent then up' else id) e.core := by
  have hinner : ((if p = parent then change else id) e).core = e.core := by
    split
    · exact hchange e
    · rfl
  rw [changed]
  split
  · rw [hup, hinner]
  · exact hinner

theorem sortKey_changed (hchange : ∀ e, (change e).sortKey = e.sortKey) (hup : LeavesPlaces up)
    (parent p : EntryPath) (e : VirtualViewEntryData) :
    (changed change up parent p e).sortKey = e.sortKey := by
  have hinner : ((if p = parent then change else id) e).sortKey = e.sortKey := by
    split
    · exact hchange e
    · rfl
  rw [changed]
  split
  · rw [(hup.entry _).sortKey, hinner]
  · exact hinner

theorem descendantDocumentCount_docDown (values : ColumnValues) (n : ℕ)
    (e : VirtualViewEntryData) : ((view.docDown values)^[n] e).descendantDocumentCount
      = e.descendantDocumentCount - n := by
  induction n generalizing e with
  | zero => simp
  | succ n ih =>
    rw [Function.iterate_succ_apply, ih, VirtualView.docDown, VirtualView.addDocTotals_eq]
    simp only [decrementDescendantCount, Bool.false_eq_true, if_false]
    push_cast
    omega

end Core

/-- Two sort keys of one key that compare alike. -/
structure SameKey (env : Runtime) (a a' : ViewEntrySortKey) : Prop where
  toKey : a'.toKey env = a.toKey env
  alike : KeysAlike env a a'

theorem SameKey.refl (env : Runtime) (a : ViewEntrySortKey) : SameKey env a a :=
  ⟨rfl, KeysAlike.refl env a⟩

theorem SameKey.isCategory {env : Runtime} {a a' : ViewEntrySortKey} (h : SameKey env a a') :
    a'.isCategory = a.isCategory := congrArg EntryKey.isCategory h.toKey

theorem SameKey.compare_iff {env : Runtime} {a a' b b' : ViewEntrySortKey}
    (h : SameKey env a a') (h' : SameKey env b b') (cmp : ViewEntrySortKeyComparator) :
    cmp.compare env a b ≤ 0 ↔ cmp.compare env a' b' ≤ 0 := by
  rw [h.alike.left, h'.alike.right]

/-- Two entries of one core, with alike sort keys. -/
structure TwinEntries (env : Runtime) (e e' : VirtualViewEntryData) : Prop where
  core : e'.core = e.core
  sortKey : SameKey env e.sortKey e'.sortKey

namespace TwinEntries

variable {env : Runtime} {e e' : VirtualViewEntryData}

theorem refl (env : Runtime) (e : VirtualViewEntryData) : TwinEntries env e e :=
  ⟨rfl, SameKey.refl env e.sortKey⟩

section

variable (h : TwinEntries env e e')

include h

theorem isCategory : e'.isCategory = e.isCategory :=
  h.sortKey.isCategory

theorem childrenComparator :
    e'.childrenComparator = e.childrenComparator :=
  congrArg (·.childrenComparator) h.core

theorem columnValues : e'.columnValues = e.columnValues :=
  congrArg (·.columnValues) h.core

theorem changed {change up : VirtualViewEntryData → VirtualViewEntryData}
    (hchange : ∀ e, (change e).core = e.core) (hkey : ∀ e, (change e).sortKey = e.sortKey)
    (hup : LeavesPlaces up) (hcore : ∀ e, (up e).core = up e.core) (parent p : EntryPath) :
    TwinEntries env (changed change up parent p e) (changed change up parent p e') := by
  refine ⟨?_, ?_⟩
  · rw [core_changed hchange hcore, core_changed hchange hcore, h.core]
  · rw [sortKey_changed hkey hup, sortKey_changed hkey hup]
    exact h.sortKey

end

end TwinEntries

/-! ## Views -/

/-- **Two views that no batch tells apart.** -/
structure Twins (env : Runtime) (s s' : ViewIndex) : Prop where
  of_some : ∀ {p e}, s.entries.get? p = some e →
    ∃ e', s'.entries.get? p = some e' ∧ TwinEntries env e e'
  some_of : ∀ {p e'}, s'.entries.get? p = some e' →
    ∃ e, s.entries.get? p = some e ∧ TwinEntries env e e'
  order : ∀ p, List.Forall₂ (SameKey env) (s.getChildEntries env p) (s'.getChildEntries env p)
  counter : s'.categoryIdCounter = s.categoryIdCounter

/-- **A tree whose sorted children are its children, in order.** -/
structure Orderly (env : Runtime) (s : ViewIndex) : Prop where
  tree : Tree env s
  cached : Cached s
  sorted : SortedChildren env s

namespace Twins

variable {env : Runtime} {s s' : ViewIndex} {p : EntryPath}

theorem has_eq (h : Twins env s s') (p : EntryPath) : s'.entries.has p = s.entries.has p := by
  rw [Bool.eq_iff_iff, has_iff, has_iff]
  constructor
  · rintro ⟨e', he'⟩
    obtain ⟨e, he, -⟩ := h.some_of he'
    exact ⟨e, he⟩
  · rintro ⟨e, he⟩
    obtain ⟨e', he', -⟩ := h.of_some he
    exact ⟨e', he'⟩

theorem get?_eq_none_iff (h : Twins env s s') :
    s'.entries.get? p = none ↔ s.entries.get? p = none := by
  rw [← has_eq_false_iff, ← has_eq_false_iff, h.has_eq]

theorem hasCategory_iff (h : Twins env s s') : s'.HasCategory p ↔ s.HasCategory p := by
  constructor
  · rintro ⟨e', he', hcat⟩
    obtain ⟨e, he, htwin⟩ := h.some_of he'
    exact ⟨e, he, htwin.isCategory.symm.trans hcat⟩
  · rintro ⟨e, he, hcat⟩
    obtain ⟨e', he', htwin⟩ := h.of_some he
    exact ⟨e', he', htwin.isCategory.trans hcat⟩

/-- The tree alone decides how many entries of a kind there are. -/
theorem tally_eq {t t' : ViewIndex} (P : EntryPath → Prop) [DecidablePred P] (isCategory : Bool)
    (h : ∀ {p e}, t.entries.get? p = some e →
      ∃ e', t'.entries.get? p = some e' ∧ e'.isCategory = e.isCategory)
    (h' : ∀ {p e'}, t'.entries.get? p = some e' →
      ∃ e, t.entries.get? p = some e ∧ e'.isCategory = e.isCategory) :
    t.tally P isCategory = t'.tally P isCategory := by
  refine sumOver_eq_of_counts (fun p e hget _ => ?_) fun p e' hget _ => ?_
  · obtain ⟨e', he', hkind⟩ := h hget
    exact ⟨e', he', by rw [tallyTerm, tallyTerm, hkind]⟩
  · obtain ⟨e, he, hkind⟩ := h' hget
    exact ⟨e, he, by rw [tallyTerm, tallyTerm, hkind]⟩

/-- What does not concern the tree makes no difference. -/
theorem relist {t t' : ViewIndex} (h : Twins env s s') (hentries : t.entries = s.entries)
    (hentries' : t'.entries = s'.entries) (hcounter : t'.categoryIdCounter = t.categoryIdCounter) :
    Twins env t t' := by
  refine ⟨fun {p e} hget => ?_, fun {p e'} hget => ?_, fun p => ?_, hcounter⟩
  · rw [hentries] at hget
    rw [hentries']
    exact h.of_some hget
  · rw [hentries'] at hget
    rw [hentries]
    exact h.some_of hget
  · rw [getChildEntries_of_entries_eq hentries, getChildEntries_of_entries_eq hentries']
    exact h.order p

end Twins

/-! ## Hanging up -/

section Hang

variable {env : Runtime} {s s' : ViewIndex} {child : VirtualViewEntryData}
  {up : VirtualViewEntryData → VirtualViewEntryData} {key : EntryKey} {parent p : EntryPath}

theorem getChildEntries_hang_of_ne (htree : Tree env s) (hup : LeavesPlaces up)
    (hfresh : s.entries.get? (child.sortKey.toKey env :: parent) = none)
    (hcache : child.sortedChildrenCache = none) (hposition : child.position = none)
    (hp : p ≠ parent) :
    (s.hang env child up parent).getChildEntries env p = s.getChildEntries env p := by
  cases hget : (s.hang env child up parent).entries.get? p with
  | some e' => exact (changesChildren_hang htree hup hfresh hcache hposition).children hp hget
  | none =>
    have hnone : s.entries.get? p = none := by
      refine Option.eq_none_iff_forall_ne_some.mpr fun e he => ?_
      obtain ⟨e', he', -⟩ := hang_of_some hup.entry hfresh he
      exact nomatch hget.symm.trans he'
    rw [getChildEntries_of_absent hget, getChildEntries_of_absent hnone]

theorem get?_hang_of_ne (hp : p ≠ child.sortKey.toKey env :: parent) :
    (s.hang env child up parent).entries.get? p
      = (s.entries.get? p).map (changed (gainChild env child) up parent p) := by
  rw [get?_hang, if_neg hp]
  rfl

/-- **Twins stay twins** when one entry is hung up in both. -/
theorem Twins.hang (h : Twins env s s') (hcollates : env.Collates) (ho : Orderly env s)
    (ho' : Orderly env s') (hup : LeavesPlaces up) (hcore : ∀ e, (up e).core = up e.core)
    (hparent : s.HasCategory parent)
    (hfresh : s.entries.get? (child.sortKey.toKey env :: parent) = none)
    (hcache : child.sortedChildrenCache = none) (hposition : child.position = none) :
    Twins env (s.hang env child up parent) (s'.hang env child up parent) := by
  have hfresh' := h.get?_eq_none_iff.mpr hfresh
  refine ⟨fun {p e} hget => ?_, fun {p e'} hget => ?_, fun p => ?_, h.counter⟩
  · by_cases hp : p = child.sortKey.toKey env :: parent
    · subst hp
      obtain rfl := Option.some.inj (hang_new.symm.trans hget)
      exact ⟨child, hang_new, TwinEntries.refl env child⟩
    · rw [get?_hang_of_ne hp] at hget ⊢
      obtain ⟨e₀, he₀, rfl⟩ := Option.map_eq_some_iff.mp hget
      obtain ⟨e₁, he₁, htwin⟩ := h.of_some he₀
      rw [he₁]
      exact ⟨_, rfl, htwin.changed (core_gainChild env child)
        (fun e => (SameEntry.gainChild env child e).sortKey) hup hcore parent p⟩
  · by_cases hp : p = child.sortKey.toKey env :: parent
    · subst hp
      obtain rfl := Option.some.inj (hang_new.symm.trans hget)
      exact ⟨child, hang_new, TwinEntries.refl env child⟩
    · rw [get?_hang_of_ne hp] at hget ⊢
      obtain ⟨e₁, he₁, rfl⟩ := Option.map_eq_some_iff.mp hget
      obtain ⟨e₀, he₀, htwin⟩ := h.some_of he₁
      rw [he₀]
      exact ⟨_, rfl, htwin.changed (core_gainChild env child)
        (fun e => (SameEntry.gainChild env child e).sortKey) hup hcore parent p⟩
  · by_cases hp : p = parent
    · subst hp
      obtain ⟨e, he, -⟩ := hparent
      obtain ⟨e', he', htwin⟩ := h.of_some he
      rw [getChildEntries_hang hcollates ho.sorted hup hfresh he,
        getChildEntries_hang hcollates ho'.sorted hup hfresh' he', htwin.childrenComparator]
      exact forall₂_insertAfter (fun a a' b b' ha hb => ha.compare_iff hb _)
        (SameKey.refl env child.sortKey) (h.order p)
    · rw [getChildEntries_hang_of_ne ho.tree hup hfresh hcache hposition hp,
        getChildEntries_hang_of_ne ho'.tree hup hfresh' hcache hposition hp]
      exact h.order p

theorem Orderly.hang (h : Orderly env s) (hcollates : env.Collates) (hup : LeavesPlaces up)
    (hparent : s.HasCategory parent)
    (hfresh : s.entries.get? (child.sortKey.toKey env :: parent) = none)
    (hcache : child.sortedChildrenCache = none) (hposition : child.position = none) :
    Orderly env (s.hang env child up parent) :=
  ⟨h.tree.hang hup.entry hparent hfresh, h.cached.hang hup hfresh hcache,
    h.sorted.hang hcollates h.tree hup hfresh hcache hposition⟩

end Hang

/-! ## Taking down -/

section Thin

variable {view : VirtualView} {values : ColumnValues} {s s' t t' u : ViewIndex}
  {child : VirtualViewEntryData} {up : VirtualViewEntryData → VirtualViewEntryData}
  {key : EntryKey} {parent p : EntryPath}

/-- **A tree thinned out**: some entries have gone, documents with one set of values among them. -/
structure Thinned (view : VirtualView) (values : ColumnValues) (s t : ViewIndex) : Prop where
  some_of : ∀ {p e'}, t.entries.get? p = some e' → ∃ e n, s.entries.get? p = some e
    ∧ e'.sortKey = e.sortKey ∧ e'.core = (view.docDown values)^[n] e.core
  order : ∀ p, t.getChildEntries view.env p
    = (s.getChildEntries view.env p).filter fun k => t.entries.has (k.toKey view.env :: p)
  counter : t.categoryIdCounter = s.categoryIdCounter

theorem Orderly.has_of_mem (h : Orderly view.env s) {k : ViewEntrySortKey}
    (hk : k ∈ s.getChildEntries view.env p) : s.entries.has (k.toKey view.env :: p) = true :=
  has_iff.mpr
    ((mem_getChildEntries_iff h.cached h.tree).mp (List.mem_map_of_mem hk))

theorem Thinned.refl (h : Orderly view.env s) : Thinned view values s s :=
  ⟨fun hget => ⟨_, 0, hget, rfl, rfl⟩,
    fun _ => (List.filter_eq_self.mpr fun _ hk => h.has_of_mem hk).symm, rfl⟩

theorem Thinned.has_of_has (h : Thinned view values s t) (hhas : t.entries.has p = true) :
    s.entries.has p = true := by
  obtain ⟨e', he'⟩ := has_iff.mp hhas
  obtain ⟨e, -, he, -⟩ := h.some_of he'
  exact has_iff.mpr ⟨e, he⟩

theorem Thinned.trans (h : Thinned view values s t) (h' : Thinned view values t u) :
    Thinned view values s u := by
  refine ⟨fun {p e''} hget => ?_, fun p => ?_, h'.counter.trans h.counter⟩
  · obtain ⟨e', n', he', hkey', hcore'⟩ := h'.some_of hget
    obtain ⟨e, n, he, hkey, hcore⟩ := h.some_of he'
    refine ⟨e, n' + n, he, hkey'.trans hkey, ?_⟩
    rw [hcore', hcore, Function.iterate_add_apply]
  · rw [h'.order, h.order, List.filter_filter]
    refine List.filter_congr fun k _ => ?_
    cases hhas : u.entries.has (k.toKey view.env :: p) with
    | false => rfl
    | true => rw [h'.has_of_has hhas, Bool.and_self]

theorem Thinned.relist (h : Thinned view values s t) (hentries : u.entries = t.entries)
    (hcounter : u.categoryIdCounter = t.categoryIdCounter) : Thinned view values s u := by
  refine ⟨fun {p e'} hget => ?_, fun p => ?_, hcounter.trans h.counter⟩
  · rw [hentries] at hget
    exact h.some_of hget
  · rw [getChildEntries_of_entries_eq hentries, h.order, hentries]

theorem has_unhang (s : ViewIndex) (env : Runtime) (child : VirtualViewEntryData)
    (up : VirtualViewEntryData → VirtualViewEntryData) (key : EntryKey) (parent p : EntryPath) :
    (s.unhang env child up key parent).entries.has p
      = (s.entries.has p && decide (p ≠ key :: parent)) := by
  rw [has, has, get?_unhang]
  by_cases hp : p = key :: parent <;> simp [hp]

/-- **One leaf less.** -/
theorem thinned_unhang (hcollates : view.env.Collates) (ho : Orderly view.env s)
    (hup : LeavesPlaces up)
    (hcore : ∃ n, ∀ e, (up e).core = (view.docDown values)^[n] e.core)
    (hget : s.entries.get? (key :: parent) = some child)
    (hleaf : ∀ k, s.entries.get? (k :: key :: parent) = none) :
    Thinned view values s (s.unhang view.env child up key parent) := by
  refine ⟨fun {p e'} hget' => ?_, fun p => ?_, rfl⟩
  · rw [get?_unhang] at hget'
    split at hget'
    · exact nomatch hget'
    · obtain ⟨e, he, rfl⟩ := Option.map_eq_some_iff.mp hget'
      obtain ⟨n, hn⟩ := hcore
      refine ⟨e, if p <:+ parent then n else 0, he,
        sortKey_changed (fun e => (SameEntry.loseChild view.env child e).sortKey) hup parent p e,
        (core_changed (core_loseChild view.env child) hn parent p e).trans ?_⟩
      split <;> rfl
  · have hfilter : (s.unhang view.env child up key parent).getChildEntries view.env p
        = (s.getChildEntries view.env p).filter
            fun k => decide (k.toKey view.env :: p ≠ key :: parent) := by
      by_cases hp : p = parent
      · subst hp
        rw [getChildEntries_unhang hcollates ho.tree ho.cached ho.sorted hup hget]
        exact List.filter_congr fun k _ => by simp
      · have hall : ∀ k ∈ s.getChildEntries view.env p,
            decide (k.toKey view.env :: p ≠ key :: parent) = true := fun k _ => by simp [hp]
        rw [List.filter_eq_self.mpr hall]
        cases hafter : (s.unhang view.env child up key parent).entries.get? p with
        | some e' => exact (changesChildren_unhang hup).children hp hafter
        | none =>
          rw [getChildEntries_of_absent hafter]
          refine (List.eq_nil_iff_forall_not_mem.mpr fun k hk => ?_).symm
          have hhas := ho.has_of_mem hk
          obtain ⟨e, he⟩ := has_iff.mp hhas
          -- only the entry that goes is missing, and it has no children
          have hp' : p = key :: parent := by
            by_contra hne
            obtain ⟨q, hq, -⟩ := ho.tree.parent he
            obtain ⟨e', he', -⟩ : ∃ e', (s.unhang view.env child up key parent).entries.get? p
                = some e' ∧ SameEntry q e' := unhang_of_some hup.entry hne hq
            exact nomatch hafter.symm.trans he'
          subst hp'
          exact nomatch he.symm.trans (hleaf _)
    rw [hfilter]
    refine List.filter_congr fun k hk => ?_
    rw [has_unhang, ho.has_of_mem hk, Bool.true_and]

/-- **Twins stay twins** when the same entries go. -/
theorem Twins.thin (h : Twins view.env s s') (ht : Thinned view values s t)
    (ht' : Thinned view values s' t') (hcounts : HasCounts t) (hcounts' : HasCounts t')
    (hhas : ∀ p, t'.entries.has p = t.entries.has p) : Twins view.env t t' := by
  have hpair : ∀ {p e}, t.entries.get? p = some e → ∃ e', t'.entries.get? p = some e' := by
    intro p e hget
    rw [← has_iff, hhas, has_iff]
    exact ⟨e, hget⟩
  have hpair' : ∀ {p e'}, t'.entries.get? p = some e' → ∃ e, t.entries.get? p = some e := by
    intro p e' hget
    rw [← has_iff, ← hhas, has_iff]
    exact ⟨e', hget⟩
  have hkey : ∀ {p e e'}, t.entries.get? p = some e → t'.entries.get? p = some e' →
      SameKey view.env e.sortKey e'.sortKey := by
    intro p e e' hget hget'
    obtain ⟨e₀, -, he₀, hkey, -⟩ := ht.some_of hget
    obtain ⟨e₁, -, he₁, hkey', -⟩ := ht'.some_of hget'
    obtain ⟨e₂, he₂, htwin⟩ := h.of_some he₀
    obtain rfl := Option.some.inj (he₁.symm.trans he₂)
    rw [hkey, hkey']
    exact htwin.sortKey
  have hcore : ∀ {p e e'}, t.entries.get? p = some e → t'.entries.get? p = some e' →
      e'.core = e.core := by
    intro p e e' hget hget'
    obtain ⟨e₀, n, he₀, -, hn⟩ := ht.some_of hget
    obtain ⟨e₁, n', he₁, -, hn'⟩ := ht'.some_of hget'
    obtain ⟨e₂, he₂, htwin⟩ := h.of_some he₀
    obtain rfl := Option.some.inj (he₁.symm.trans he₂)
    -- the number of documents that are left tells how many have gone
    have hdescendants : e'.descendantDocumentCount = e.descendantDocumentCount := by
      rw [(hcounts' p e' hget').descendantDocumentCount, (hcounts p e hget).descendantDocumentCount]
      refine (Twins.tally_eq _ false (fun {q a} ha => ?_) fun {q a'} ha' => ?_).symm
      · obtain ⟨a', ha'⟩ := hpair ha
        exact ⟨a', ha', (hkey ha ha').isCategory⟩
      · obtain ⟨a, ha⟩ := hpair' ha'
        exact ⟨a, ha, (hkey ha ha').isCategory⟩
    have hcount : ∀ {a b : VirtualViewEntryData} {m : ℕ},
        a.core = (view.docDown values)^[m] b.core →
          a.descendantDocumentCount = b.descendantDocumentCount - m := by
      intro a b m hm
      have := congrArg (·.descendantDocumentCount) hm
      rw [descendantDocumentCount_docDown] at this
      exact this
    have hn₀ := hcount hn
    have hn₁ := hcount hn'
    have hsame : e₁.descendantDocumentCount = e₀.descendantDocumentCount :=
      congrArg (·.descendantDocumentCount) htwin.core
    obtain rfl : n' = n := by omega
    rw [hn, hn', htwin.core]
  refine ⟨fun {p e} hget => ?_, fun {p e'} hget => ?_, fun p => ?_, ?_⟩
  · obtain ⟨e', he'⟩ := hpair hget
    exact ⟨e', he', hcore hget he', hkey hget he'⟩
  · obtain ⟨e, he⟩ := hpair' hget
    exact ⟨e, he, hcore he hget, hkey he hget⟩
  · rw [ht.order, ht'.order]
    refine List.rel_filter (fun {a a'} ha => ?_) (h.order p)
    show (t.entries.has (a.toKey view.env :: p) = true)
      ↔ t'.entries.has (a'.toKey view.env :: p) = true
    rw [ha.toKey, hhas]
  · rw [ht'.counter, ht.counter, h.counter]

end Thin

end MindooDB
