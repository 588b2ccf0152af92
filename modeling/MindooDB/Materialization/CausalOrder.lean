import MindooDB.Materialization.Agreement

/-!
# Materialization/CausalOrder — the timeline of a document

`orderDagEntriesCausally` of `core/DocumentDagAnalysis.ts`: Kahn's algorithm on a ready list that is
kept sorted by creation time and id.  Between two rounds an entry's counter is the number of its
dependencies still to come, each as often as it is listed, and the ready list holds the entries that
wait for nothing (`CausalInvariant`); so each round takes the least ready entry, which is the greedy
order of `Lib/LeastExtension`.
-/

namespace MindooDB

open LinkedMap List ReadyOrder

variable (localeCompare : JSString → JSString → ℤ)

/-- `depsOf`: the dependencies of an entry that are in the list. -/
def depsOf (byId : EntryMap) (entry : StoreEntryMetadata) : List JSString :=
  (if entry.entryType = .docSnapshot then snapshotRoots entry else entry.dependencyIds).filter byId.has

/-- How many dependencies each entry waits for, and who waits for it. -/
structure DagTables where
  remainingDeps : LinkedMap JSString ℤ := ∅
  childIds : LinkedMap JSString (List JSString) := ∅

def addChild (entryId : JSString) (childIds : LinkedMap JSString (List JSString))
    (dependencyId : JSString) : LinkedMap JSString (List JSString) :=
  childIds.set dependencyId ((childIds.get? dependencyId).getD [] ++ [entryId])

/-- The loop body over the entries. -/
def countDagEntry (byId : EntryMap) (tables : DagTables) (entry : StoreEntryMetadata) : DagTables :=
  let deps := depsOf byId entry
  ⟨tables.remainingDeps.set entry.id deps.length, deps.foldl (addChild entry.id) tables.childIds⟩

/-- `findIndex` and `push` or `splice`. -/
def insertReady (ready : List StoreEntryMetadata) (child : StoreEntryMetadata) :
    List StoreEntryMetadata :=
  match ready.findIdx? fun entry => compareByCreatedAtThenId localeCompare child entry < 0 with
  | none => ready ++ [child]
  | some insertAt => ready.insertIdx insertAt child

/-- `byId.get(childId)!` joins the ready list. -/
def insertReadyId (byId : EntryMap) (ready : List StoreEntryMetadata) (childId : JSString) :
    List StoreEntryMetadata :=
  (byId.get? childId).elim ready (insertReady localeCompare ready)

/-- The loop body over the children of the entry that was taken. -/
def releaseChild (byId : EntryMap) (s : LinkedMap JSString ℤ × List StoreEntryMetadata)
    (childId : JSString) : LinkedMap JSString ℤ × List StoreEntryMetadata :=
  let left := (s.1.get? childId).getD 1 - 1
  (s.1.set childId left, if left = 0 then insertReadyId localeCompare byId s.2 childId else s.2)

/-- `while (ready.length > 0)`; `none` when the fuel ran out. -/
def causalLoop (byId : EntryMap) (childIds : LinkedMap JSString (List JSString)) :
    ℕ → LinkedMap JSString ℤ → List StoreEntryMetadata → List StoreEntryMetadata →
      Option (List StoreEntryMetadata)
  | _, _, [], result => some result
  | 0, _, _ :: _, _ => none
  | fuel + 1, remainingDeps, next :: ready, result =>
    let (remainingDeps', ready') := ((childIds.get? next.id).getD []).foldl
      (releaseChild localeCompare byId) (remainingDeps, ready)
    causalLoop byId childIds fuel remainingDeps' ready' (result ++ [next])

/-- **Dependencies first**, then by time and id. -/
def orderDagEntriesCausally (dagEntries : List StoreEntryMetadata) : List StoreEntryMetadata :=
  let byId := entriesById dagEntries
  let tables := dagEntries.foldl (countDagEntry byId) {}
  let ready := sortBy (compareByCreatedAtThenId localeCompare)
    (dagEntries.filter fun entry => tables.remainingDeps.get? entry.id = some 0)
  let result := (causalLoop localeCompare byId tables.childIds dagEntries.length
    tables.remainingDeps ready []).getD []
  if result.length < dagEntries.length then
    result ++ sortBy (compareByCreatedAtThenId localeCompare)
      (dagEntries.filter fun entry => entry.id ∉ result.map (·.id))
  else result

variable (dagEntries : List StoreEntryMetadata)

/-- An entry has another of the list as a dependency, a snapshot its roots. -/
def DagNeeds (e d : StoreEntryMetadata) : Prop := d.id ∈ depsOf (entriesById dagEntries) e

/-- `e` goes before `e'` by creation time and id. -/
def GoesBefore (e e' : StoreEntryMetadata) : Prop := compareByCreatedAtThenId localeCompare e e' < 0

/-- **No dependency comes after what depends on it.** -/
def Causal (l : List StoreEntryMetadata) : Prop :=
  Extends (DagNeeds dagEntries) l

/-! ## Counting -/

variable {e : StoreEntryMetadata} {ready : List StoreEntryMetadata}

section Tables

/-- The dependencies of an entry that are still to come, each as often as it is listed. -/
def waitsForDeps (result : List StoreEntryMetadata) (e : StoreEntryMetadata) : ℕ :=
  (depsOf (entriesById dagEntries) e).countP fun d => d ∉ result.map (·.id)

variable {dagEntries}

theorem count_foldl_addChild (entryId : JSString) (deps : List JSString)
    (childIds : LinkedMap JSString (List JSString)) (y x : JSString) :
    ((((deps.foldl (addChild entryId) childIds).get? y).getD []).count x)
      = ((childIds.get? y).getD []).count x + if x = entryId then deps.count y else 0 := by
  induction deps generalizing childIds with
  | nil => simp
  | cons d deps ih =>
    rw [foldl_cons, ih, addChild, get?_set, count_cons]
    by_cases hy : y = d
    · subst hy
      rw [if_pos rfl, Option.getD_some, count_append]
      by_cases hx : x = entryId
      · subst hx
        simp
        omega
      · simp [hx, Ne.symm hx]
    · rw [if_neg hy]
      simp [Ne.symm hy]

variable (byId : EntryMap)

variable {l : List StoreEntryMetadata}

/-- Of entries with ids of their own, all but one leave what only that one touches. -/
theorem exists_foldl_countDagEntry {α : Type} (read : DagTables → α) (hids : (l.map (·.id)).Nodup)
    (he : e ∈ l) (hskip : ∀ tables e', e.id ≠ e'.id → read (countDagEntry byId tables e') = read tables)
    (tables : DagTables) : ∃ before, read before = read tables
      ∧ read (l.foldl (countDagEntry byId) tables) = read (countDagEntry byId before e) := by
  have hrest : ∀ (l : List StoreEntryMetadata) (tables : DagTables), e.id ∉ l.map (·.id) →
      read (l.foldl (countDagEntry byId) tables) = read tables := by
    intro l
    induction l with
    | nil => exact fun _ _ => rfl
    | cons e' l ih =>
      intro tables hid
      obtain ⟨hne, hid⟩ := not_or.mp (mem_cons.not.mp hid)
      rw [foldl_cons, ih _ hid, hskip _ e' hne]
  obtain ⟨before, after, rfl⟩ := append_of_mem he
  rw [map_append, nodup_append, map_cons, nodup_cons] at hids
  refine ⟨before.foldl (countDagEntry byId) tables, hrest before tables fun hmem =>
    hids.2.2 _ hmem _ mem_cons_self rfl, ?_⟩
  rw [foldl_append, foldl_cons, hrest after _ hids.2.1.1]

theorem get?_foldl_countDagEntry (hids : (l.map (·.id)).Nodup) (tables : DagTables) (he : e ∈ l) :
    (l.foldl (countDagEntry byId) tables).remainingDeps.get? e.id
      = some ((depsOf byId e).length : ℤ) := by
  obtain ⟨before, -, heq⟩ := exists_foldl_countDagEntry byId (·.remainingDeps.get? e.id) hids he
    (fun tables e' hne => by rw [countDagEntry, get?_set, if_neg hne]) tables
  rw [heq, countDagEntry, get?_set_self]

theorem count_foldl_countDagEntry (hids : (l.map (·.id)).Nodup)
    (tables : DagTables) (y : JSString) (he : e ∈ l) :
    (((l.foldl (countDagEntry byId) tables).childIds.get? y).getD []).count e.id
      = ((tables.childIds.get? y).getD []).count e.id + (depsOf byId e).count y := by
  obtain ⟨before, hbefore, heq⟩ := exists_foldl_countDagEntry byId
    (fun tables => ((tables.childIds.get? y).getD []).count e.id) hids he
    (fun tables e' hne => by
      rw [countDagEntry, count_foldl_addChild, if_neg hne, Nat.add_zero]) tables
  rw [heq, countDagEntry, count_foldl_addChild, if_pos rfl, hbefore]

/-- Children are entries of the list. -/
theorem mem_foldl_countDagEntry {tables : DagTables} {y x : JSString}
    (hx : x ∈ ((l.foldl (countDagEntry byId) tables).childIds.get? y).getD []) :
    x ∈ (tables.childIds.get? y).getD [] ∨ x ∈ l.map (·.id) := by
  induction l generalizing tables with
  | nil => exact .inl hx
  | cons e l ih =>
    rcases ih hx with hx | hx
    · rw [countDagEntry, ← count_pos_iff, count_foldl_addChild] at hx
      by_cases heq : x = e.id
      · exact .inr (mem_cons.mpr (.inl heq))
      · rw [if_neg heq, Nat.add_zero, count_pos_iff] at hx
        exact .inl hx
    · exact .inr (mem_cons_of_mem _ hx)

end Tables

/-! ## The ready list -/

section ReadyList

variable {localeCompare}

theorem insertReady_eq (ready : List StoreEntryMetadata) (child : StoreEntryMetadata) :
    insertReady localeCompare ready child = ready.insertIdx
      (ready.findIdx fun entry => compareByCreatedAtThenId localeCompare child entry < 0) child := by
  rw [insertReady]
  split
  · rename_i hnone
    rw [findIdx_eq_length_of_false (findIdx?_eq_none_iff.mp hnone), insertIdx_length_self]
  · rename_i insertAt hsome
    rw [findIdx_eq_getD_findIdx?, hsome, Option.getD_some]

theorem mem_insertReady {child : StoreEntryMetadata} :
    e ∈ insertReady localeCompare ready child ↔ e = child ∨ e ∈ ready := by
  rw [insertReady_eq]
  exact mem_insertIdx findIdx_le_length

theorem pairwise_insertReady (horders : Orders localeCompare)
    (hsorted : ready.Pairwise fun a b => compareByCreatedAtThenId localeCompare a b ≤ 0)
    (child : StoreEntryMetadata) : (insertReady localeCompare ready child).Pairwise
      fun a b => compareByCreatedAtThenId localeCompare a b ≤ 0 := by
  have hcmp := orders_compareByCreatedAtThenId horders
  rw [insertReady_eq]
  refine pairwise_insertIdx_of hsorted findIdx_le_length (fun i b hi hb => ?_)
    fun i b hi hb => ?_
  · obtain ⟨hlt, rfl⟩ := List.getElem?_eq_some_iff.mp hb
    have hnot := not_of_lt_findIdx hi
    rw [decide_eq_false_iff_not, not_lt] at hnot
    exact (hcmp.swap_le _ _).mpr hnot
  · obtain ⟨hlt, rfl⟩ := List.getElem?_eq_some_iff.mp hb
    have hfound := findIdx_getElem (w := hi.trans_lt hlt)
    rw [decide_eq_true_eq] at hfound
    rcases hi.lt_or_eq with hbelow | heq
    · exact (hcmp.lt_trans hfound (pairwise_iff_getElem.mp hsorted _ _ _ hlt hbelow)).le
    · simp only [heq] at hfound
      exact hfound.le

theorem mem_insertReadyId {byId : EntryMap} {childId : JSString} :
    e ∈ insertReadyId localeCompare byId ready childId ↔ byId.get? childId = some e ∨ e ∈ ready := by
  rw [insertReadyId]
  cases byId.get? childId with
  | none => simp
  | some child =>
    rw [Option.elim_some, mem_insertReady, Option.some.injEq]
    exact or_congr_left eq_comm

/-- **Releasing the children of an entry** is counting them down and inserting those that have
nothing left to wait for. -/
theorem foldl_releaseChild (byId : EntryMap) (l : List JSString)
    (remainingDeps : LinkedMap JSString ℤ) (queue : List JSString) (ready : List StoreEntryMetadata)
    (hpresent : ∀ x ∈ l, (remainingDeps.get? x).isSome) :
    l.foldl (releaseChild localeCompare byId)
        (remainingDeps, queue.foldl (insertReadyId localeCompare byId) ready)
      = ((l.foldl release (remainingDeps, queue)).1,
        (l.foldl release (remainingDeps, queue)).2.foldl (insertReadyId localeCompare byId) ready) := by
  induction l generalizing remainingDeps queue with
  | nil => rfl
  | cons x l ih =>
    obtain ⟨n, hn⟩ := Option.isSome_iff_exists.mp (hpresent x mem_cons_self)
    have hstep : releaseChild localeCompare byId
          (remainingDeps, queue.foldl (insertReadyId localeCompare byId) ready) x
        = ((release (remainingDeps, queue) x).1,
          (release (remainingDeps, queue) x).2.foldl (insertReadyId localeCompare byId) ready) := by
      simp only [releaseChild, release, orFalsy_zero, hn, Option.getD_some]
      split
      · rw [foldl_concat]
      · rfl
    rw [foldl_cons, foldl_cons, hstep, ih]
    intro y hy
    simp only [release, get?_set]
    split
    · rfl
    · exact hpresent y (mem_cons_of_mem _ hy)

theorem mem_foldl_insertReadyId {byId : EntryMap} {released : List JSString} :
    e ∈ released.foldl (insertReadyId localeCompare byId) ready
      ↔ e ∈ ready ∨ ∃ childId ∈ released, byId.get? childId = some e := by
  induction released generalizing ready with
  | nil => simp
  | cons x released ih =>
    rw [foldl_cons, ih, mem_insertReadyId, exists_mem_cons_iff]
    exact ⟨fun h => by tauto, fun h => by tauto⟩

theorem pairwise_foldl_insertReadyId (horders : Orders localeCompare) (byId : EntryMap)
    (released : List JSString)
    (hsorted : ready.Pairwise fun a b => compareByCreatedAtThenId localeCompare a b ≤ 0) :
    (released.foldl (insertReadyId localeCompare byId) ready).Pairwise
      fun a b => compareByCreatedAtThenId localeCompare a b ≤ 0 := by
  induction released generalizing ready with
  | nil => exact hsorted
  | cons x released ih =>
    refine ih ?_
    rw [insertReadyId]
    cases byId.get? x with
    | none => exact hsorted
    | some child => exact pairwise_insertReady horders hsorted child

theorem nodup_insertReady {child : StoreEntryMetadata}
    (hready : ready.Nodup) (hnew : child ∉ ready) : (insertReady localeCompare ready child).Nodup := by
  rw [insertReady_eq]
  have hperm := perm_insertIdx child ready (i := ready.findIdx fun entry =>
    decide (compareByCreatedAtThenId localeCompare child entry < 0)) findIdx_le_length
  exact hperm.nodup_iff.mpr (nodup_cons.mpr ⟨hnew, hready⟩)

theorem nodup_foldl_insertReadyId {byId : EntryMap} {released : List JSString}
    (hreleased : released.Nodup) (hready : ready.Nodup)
    (hbyId : ∀ x e, byId.get? x = some e → e.id = x)
    (hnew : ∀ x ∈ released, ∀ e, byId.get? x = some e → e ∉ ready) :
    (released.foldl (insertReadyId localeCompare byId) ready).Nodup := by
  induction released generalizing ready with
  | nil => exact hready
  | cons x released ih =>
    obtain ⟨hx, hreleased⟩ := nodup_cons.mp hreleased
    refine ih hreleased ?_ fun y hy e he hmem => ?_
    · rw [insertReadyId]
      cases hchild : byId.get? x with
      | none => exact hready
      | some child => exact nodup_insertReady hready (hnew x mem_cons_self child hchild)
    · rcases mem_insertReadyId.mp hmem with hsame | hmem
      · obtain rfl : x = y := (hbyId x e hsame).symm.trans (hbyId y e he)
        exact hx hy
      · exact hnew y (mem_cons_of_mem _ hy) e he hmem

end ReadyList

/-! ## One round -/

section Loop

variable {localeCompare dagEntries}

theorem get?_entriesById (hids : (dagEntries.map (·.id)).Nodup) {id : JSString} :
    (entriesById dagEntries).get? id = some e ↔ e ∈ dagEntries ∧ e.id = id := by
  rw [entriesById, get?_ofList (by rw [map_map]; exact hids)]
  simp only [mem_map, Prod.mk.injEq]
  constructor
  · rintro ⟨e', he', hid, heq⟩
    exact heq ▸ ⟨he', hid⟩
  · rintro ⟨he, hid⟩
    exact ⟨e, he, hid, rfl⟩

theorem mem_depsOf (hids : (dagEntries.map (·.id)).Nodup) {dep : JSString}
    (hdep : dep ∈ depsOf (entriesById dagEntries) e) : ∃ d ∈ dagEntries, d.id = dep := by
  obtain ⟨d, hd⟩ := has_iff.mp (mem_filter.mp hdep).2
  exact ⟨d, (get?_entriesById hids).mp hd⟩

variable (localeCompare dagEntries)

/-- What holds between two rounds of the loop. -/
structure CausalInvariant (remainingDeps : LinkedMap JSString ℤ)
    (ready result : List StoreEntryMetadata) : Prop where
  waiting : ∀ e ∈ dagEntries,
    remainingDeps.get? e.id = some (waitsForDeps dagEntries result e : ℤ)
  sorted : ready.Pairwise fun a b => compareByCreatedAtThenId localeCompare a b ≤ 0
  nodup : ready.Nodup
  ready : ∀ e, e ∈ ready ↔ e ∈ dagEntries ∧ e ∉ result ∧ waitsForDeps dagEntries result e = 0
  within : ∀ e ∈ result, e ∈ dagEntries
  closed : ∀ e ∈ result, waitsForDeps dagEntries result e = 0

variable {localeCompare dagEntries}

theorem mem_map_id_iff (hids : (dagEntries.map (·.id)).Nodup) {l : List StoreEntryMetadata}
    (hl : ∀ e ∈ l, e ∈ dagEntries) {e : StoreEntryMetadata} (he : e ∈ dagEntries) :
    e.id ∈ l.map (·.id) ↔ e ∈ l := by
  refine ⟨fun hmem => ?_, fun hmem => mem_map_of_mem hmem⟩
  obtain ⟨e', he', hid⟩ := mem_map.mp hmem
  rwa [inj_on_of_nodup_map hids he (hl e' he') hid.symm]

variable {result : List StoreEntryMetadata} {remainingDeps : LinkedMap JSString ℤ}

/-- An entry waits for nothing when all it needs is there. -/
theorem waitsForDeps_eq_zero_iff (hids : (dagEntries.map (·.id)).Nodup)
    (hwithin : ∀ e ∈ result, e ∈ dagEntries) : waitsForDeps dagEntries result e = 0
      ↔ ∀ d ∈ dagEntries, DagNeeds dagEntries e d → d ∈ result := by
  rw [waitsForDeps, countP_eq_zero]
  simp only [decide_eq_true_eq, not_not]
  constructor
  · exact fun h d hd hneeds => (mem_map_id_iff hids hwithin hd).mp (h d.id hneeds)
  · intro h dep hdep
    obtain ⟨d, hd, rfl⟩ := mem_depsOf hids hdep
    exact mem_map_of_mem (h d hd hdep)

/-- Taking an entry releases as many waits as it is listed. -/
theorem waitsForDeps_append {result : List StoreEntryMetadata} {next : StoreEntryMetadata}
    (hnew : next.id ∉ result.map (·.id)) (e : StoreEntryMetadata) :
    waitsForDeps dagEntries result e = waitsForDeps dagEntries (result ++ [next]) e
      + (depsOf (entriesById dagEntries) e).count next.id := by
  simp only [waitsForDeps, map_append, map_cons, map_nil]
  induction depsOf (entriesById dagEntries) e with
  | nil => rfl
  | cons d deps ih =>
    rw [countP_cons, countP_cons, ih]
    by_cases hd : d = next.id
    · subst hd
      have hold : decide (next.id ∉ result.map (·.id)) = true := decide_eq_true hnew
      have hin : decide (next.id ∉ result.map (·.id) ++ [next.id]) = false := by simp
      rw [count_cons_self, hold, hin, if_pos rfl, if_neg Bool.false_ne_true]
      omega
    · have hsame : decide (d ∉ result.map (·.id) ++ [next.id]) = decide (d ∉ result.map (·.id)) := by
        simp [hd]
      rw [count_cons_of_ne hd, hsame]
      omega

/-- **A round keeps the invariant.** -/
theorem CausalInvariant.round (horders : Orders localeCompare)
    (hids : (dagEntries.map (·.id)).Nodup) {next : StoreEntryMetadata}
    (h : CausalInvariant localeCompare dagEntries remainingDeps (next :: ready) result)
    {children : List JSString} (hwithin : ∀ x ∈ children, x ∈ dagEntries.map (·.id))
    (hchildren : ∀ e ∈ dagEntries,
      children.count e.id = (depsOf (entriesById dagEntries) e).count next.id) :
    CausalInvariant localeCompare dagEntries
      (children.foldl (releaseChild localeCompare (entriesById dagEntries)) (remainingDeps, ready)).1
      (children.foldl (releaseChild localeCompare (entriesById dagEntries)) (remainingDeps, ready)).2
      (result ++ [next]) := by
  obtain ⟨hnext, hnew, hdone⟩ := (h.ready next).mp mem_cons_self
  obtain ⟨hnextReady, hnodup⟩ := nodup_cons.mp h.nodup
  have hnewId : next.id ∉ result.map (·.id) := fun hmem =>
    hnew ((mem_map_id_iff hids h.within hnext).mp hmem)
  have hwaits := @waitsForDeps_append dagEntries _ _ hnewId
  have hwithin' : ∀ e ∈ result ++ [next], e ∈ dagEntries := by
    intro e he
    rcases mem_append.mp he with he | he
    · exact h.within e he
    · exact mem_singleton.mp he ▸ hnext
  -- what the counters of the children say, by id
  let waits : JSString → ℕ := fun x =>
    ((entriesById dagEntries).get? x).elim 0 (waitsForDeps dagEntries result)
  have hwaitsOf : ∀ e ∈ dagEntries, waits e.id = waitsForDeps dagEntries result e := fun e he => by
    simp only [waits, (get?_entriesById hids).mpr ⟨he, rfl⟩, Option.elim_some]
  have hcounters : ∀ x ∈ children, remainingDeps.get? x = some (waits x : ℤ)
      ∧ children.count x ≤ waits x := by
    intro x hx
    obtain ⟨e, he, rfl⟩ := mem_map.mp (hwithin x hx)
    rw [hwaitsOf e he]
    refine ⟨h.waiting e he, ?_⟩
    rw [hchildren e he, hwaits e]
    omega
  obtain ⟨released, hqueue, hreleased, hjoin, hcounts⟩ :=
    foldl_release children waits remainingDeps [] hcounters
  have hfold := @foldl_releaseChild localeCompare (entriesById dagEntries) children
    remainingDeps [] ready fun x hx => Option.isSome_iff_exists.mpr ⟨_, (hcounters x hx).1⟩
  rw [foldl_nil, hqueue, nil_append] at hfold
  have hjoin' : ∀ e ∈ dagEntries, (e.id ∈ released ↔
      e.id ∈ children ∧ waitsForDeps dagEntries (result ++ [next]) e = 0) := by
    intro e he
    rw [hjoin]
    refine and_congr_right fun _ => ?_
    have hw := hwaits e
    have hc := hchildren e he
    rw [hwaitsOf e he]
    omega
  -- a child of `next` waited for it: it was neither taken nor ready
  have hfresh : ∀ e ∈ dagEntries, e.id ∈ children → e ∉ result ∧ e ∉ next :: ready := by
    intro e he hchild
    have hpos : waitsForDeps dagEntries result e ≠ 0 := by
      have hc := hchildren e he
      have := count_pos_iff.mpr hchild
      have := hwaits e
      omega
    exact ⟨fun hmem => hpos (h.closed e hmem), fun hmem => hpos ((h.ready e).mp hmem).2.2⟩
  rw [hfold]
  refine ⟨fun e he => ?_, pairwise_foldl_insertReadyId horders _ _ (pairwise_cons.mp h.sorted).2,
    nodup_foldl_insertReadyId hreleased hnodup (fun x e hx => ((get?_entriesById hids).mp hx).2)
      fun x hx e he hmem => ?_, fun e => ?_, hwithin', fun e he => ?_⟩
  · have hw := hwaits e
    have hc := hchildren e he
    rw [hcounts, hwaitsOf e he, h.waiting e he]
    split
    · congr 1
      omega
    · rename_i hnot
      rw [count_eq_zero_of_not_mem hnot] at hc
      congr 2
      omega
  · obtain ⟨hin, rfl⟩ := (get?_entriesById hids).mp he
    exact (hfresh e hin ((hjoin' e hin).mp hx).1).2 (mem_cons_of_mem _ hmem)
  · rw [mem_foldl_insertReadyId]
    simp only [get?_entriesById hids, mem_append, mem_singleton, not_or]
    constructor
    · rintro (hmem | ⟨_, hrel, he, rfl⟩)
      · obtain ⟨he, hnot, hzero⟩ := (h.ready e).mp (mem_cons_of_mem _ hmem)
        refine ⟨he, ⟨hnot, fun heq => hnextReady (heq ▸ hmem)⟩, ?_⟩
        have := hwaits e
        omega
      · obtain ⟨hchild, hzero⟩ := (hjoin' e he).mp hrel
        obtain ⟨hnot, hnotReady⟩ := hfresh e he hchild
        exact ⟨he, ⟨hnot, fun heq => hnotReady (heq ▸ mem_cons_self)⟩, hzero⟩
    · rintro ⟨he, ⟨hnot, hne⟩, hzero⟩
      by_cases hchild : e.id ∈ children
      · exact .inr ⟨e.id, (hjoin' e he).mpr ⟨hchild, hzero⟩, he, rfl⟩
      · have hc := hchildren e he
        rw [count_eq_zero_of_not_mem hchild] at hc
        have hw := hwaits e
        have hready := (h.ready e).mpr ⟨he, hnot, by omega⟩
        exact .inl ((mem_cons.mp hready).resolve_left hne)
  · have hw := hwaits e
    rcases mem_append.mp he with he | he
    · have := h.closed e he
      omega
    · rw [mem_singleton.mp he] at hw ⊢
      omega

/-- The elements that are taken, as the greedy order sees them. -/
abbrev taken (result : List StoreEntryMetadata) : Set StoreEntryMetadata := {e | e ∈ result}

theorem CausalInvariant.ready_iff (hids : (dagEntries.map (·.id)).Nodup)
    (h : CausalInvariant localeCompare dagEntries remainingDeps ready result) : e ∈ ready
      ↔ Ready {e | e ∈ dagEntries} (DagNeeds dagEntries) (taken result) e := by
  rw [h.ready, waitsForDeps_eq_zero_iff hids h.within]
  rfl

/-- Two entries that tie are one. -/
theorem goesBefore_of_le (horders : Orders localeCompare)
    (hseparates : Separates localeCompare (dagEntries.map (·.id)))
    (hids : (dagEntries.map (·.id)).Nodup) {e e' : StoreEntryMetadata} (he : e ∈ dagEntries)
    (he' : e' ∈ dagEntries) (hle : compareByCreatedAtThenId localeCompare e e' ≤ 0) :
    e' = e ∨ GoesBefore localeCompare e e' := by
  rcases hle.lt_or_eq with hlt | hzero
  · exact .inr hlt
  · rw [compareByCreatedAtThenId] at hzero
    split at hzero
    · omega
    · have hid := hseparates _ (mem_map_of_mem he) _ (mem_map_of_mem he') hzero.le
        ((horders.swap_le _ _).mpr hzero.ge)
      exact .inl (inj_on_of_nodup_map hids he' he hid.symm)

/-- **The loop ends, and takes what is left in the greedy order.** -/
theorem CausalInvariant.causalLoop (horders : Orders localeCompare)
    (hseparates : Separates localeCompare (dagEntries.map (·.id)))
    (hids : (dagEntries.map (·.id)).Nodup) {childIds : LinkedMap JSString (List JSString)}
    (hwithin : ∀ y, ∀ x ∈ (childIds.get? y).getD [], x ∈ dagEntries.map (·.id))
    (hchildren : ∀ y, ∀ e ∈ dagEntries, ((childIds.get? y).getD []).count e.id
      = (depsOf (entriesById dagEntries) e).count y)
    {fuel : ℕ}
    (h : CausalInvariant localeCompare dagEntries remainingDeps ready result)
    (hresult : result.Nodup) (hfuel : dagEntries.length ≤ fuel + result.length) :
    ∃ l, MindooDB.causalLoop localeCompare (entriesById dagEntries) childIds fuel remainingDeps ready
        result = some (result ++ l)
      ∧ GreedyBy (GoesBefore localeCompare) {e | e ∈ dagEntries} (DagNeeds dagEntries)
        (taken result) l := by
  induction fuel generalizing remainingDeps ready result with
  | zero =>
    -- everything was taken, so nothing is ready
    have hperm : result.Perm dagEntries := (subperm_of_subset hresult h.within).perm_of_length_le
      (by rwa [Nat.zero_add] at hfuel)
    have hempty : ∀ e, e ∉ ready := fun e he =>
      ((h.ready e).mp he).2.1 (hperm.mem_iff.mpr ((h.ready e).mp he).1)
    obtain rfl : ready = [] := eq_nil_iff_forall_not_mem.mpr hempty
    exact ⟨[], by simp [MindooDB.causalLoop], .stop fun e he => hempty e ((h.ready_iff hids).mpr he)⟩
  | succ fuel ih =>
    cases ready with
    | nil =>
      refine ⟨[], by simp [MindooDB.causalLoop], .stop fun e he => ?_⟩
      exact not_mem_nil ((h.ready_iff hids).mpr he)
    | cons next ready =>
      have hnext := (h.ready_iff hids).mp mem_cons_self
      have hdistinct : (result ++ [next]).Nodup := by
        refine nodup_append.mpr ⟨hresult, nodup_singleton next, fun e he e' he' heq => ?_⟩
        exact hnext.2.1 (mem_singleton.mp he' ▸ heq ▸ he)
      obtain ⟨l, hl, hgreedy⟩ := ih (h.round horders hids (hwithin next.id) (hchildren next.id))
        hdistinct (by rw [length_append, length_singleton]; omega)
      have hinsert : taken (result ++ [next]) = insert next (taken result) := by
        ext e
        simp [taken, or_comm]
      rw [hinsert] at hgreedy
      refine ⟨next :: l, ?_, .pick hnext (fun e he => ?_) hgreedy⟩
      · simp only [MindooDB.causalLoop, hl, append_assoc, singleton_append]
      · rcases mem_cons.mp ((h.ready_iff hids).mpr he) with rfl | hmem
        · exact .inl rfl
        · exact goesBefore_of_le horders hseparates hids hnext.1 he.1
            ((pairwise_cons.mp h.sorted).1 e hmem)

/-! ## The order -/

variable (localeCompare) in
/-- **The order is the greedy one**, with what is on a cycle behind it. -/
theorem orderDagEntriesCausally_eq (horders : Orders localeCompare)
    (hseparates : Separates localeCompare (dagEntries.map (·.id)))
    (hids : (dagEntries.map (·.id)).Nodup) :
    ∃ l, GreedyBy (GoesBefore localeCompare) {e | e ∈ dagEntries} (DagNeeds dagEntries) ∅ l
      ∧ orderDagEntriesCausally localeCompare dagEntries
        = l ++ sortBy (compareByCreatedAtThenId localeCompare)
          (dagEntries.filter fun entry => entry.id ∉ l.map (·.id)) := by
  let byId := entriesById dagEntries
  let tables := dagEntries.foldl (countDagEntry byId) {}
  have hempty : ∀ y, (({} : DagTables).childIds.get? y).getD [] = [] := fun y => by
    simp [get?_empty]
  have hwaits : ∀ e, waitsForDeps dagEntries [] e = (depsOf byId e).length := fun e => by
    simp [waitsForDeps, byId]
  have hremaining : ∀ e ∈ dagEntries, tables.remainingDeps.get? e.id
      = some ((depsOf byId e).length : ℤ) := fun e he => get?_foldl_countDagEntry byId hids {} he
  have hinit : CausalInvariant localeCompare dagEntries tables.remainingDeps
      (sortBy (compareByCreatedAtThenId localeCompare)
        (dagEntries.filter fun entry => tables.remainingDeps.get? entry.id = some 0)) [] := by
    refine ⟨fun e he => by rw [hwaits, hremaining e he],
      pairwise_sortBy ((orders_compareByCreatedAtThenId horders).consistent _),
      (perm_sortBy _ _).nodup_iff.mpr (hids.of_map.filter _), fun e => ?_, by simp, by simp⟩
    simp only [mem_sortBy, mem_filter, decide_eq_true_eq, not_mem_nil, not_false_eq_true,
      true_and, hwaits]
    refine and_congr_right fun he => ?_
    rw [hremaining e he, Option.some.injEq, Int.natCast_eq_zero]
  have hwithin : ∀ y, ∀ x ∈ (tables.childIds.get? y).getD [], x ∈ dagEntries.map (·.id) := by
    intro y x hx
    rcases mem_foldl_countDagEntry byId hx with hx | hx
    · rw [hempty] at hx
      exact nomatch hx
    · exact hx
  have hchildren : ∀ y, ∀ e ∈ dagEntries, ((tables.childIds.get? y).getD []).count e.id
      = (depsOf byId e).count y := by
    intro y e he
    rw [count_foldl_countDagEntry byId hids {} y he, hempty, count_nil, Nat.zero_add]
  obtain ⟨l, hloop, hgreedy⟩ := hinit.causalLoop horders hseparates hids hwithin hchildren
    nodup_nil (le_refl (dagEntries.length + 0))
  have htaken : taken [] = ∅ := by simp [taken]
  rw [htaken] at hgreedy
  rw [nil_append] at hloop
  refine ⟨l, hgreedy, ?_⟩
  have hunfold : orderDagEntriesCausally localeCompare dagEntries
      = if l.length < dagEntries.length then
          l ++ sortBy (compareByCreatedAtThenId localeCompare)
            (dagEntries.filter fun entry => entry.id ∉ l.map (·.id))
        else l := by
    simp only [orderDagEntriesCausally]
    rw [show MindooDB.causalLoop _ _ _ _ _ _ _ = _ from hloop]
    rfl
  rw [hunfold]
  split
  · rfl
  · rename_i hlength
    -- everything was taken
    have hsub : l.Subperm dagEntries := hgreedy.nodup.subperm fun e he => (hgreedy.mem he).1
    have hperm := hsub.perm_of_length_le (not_lt.mp hlength)
    have hnone : dagEntries.filter (fun entry => entry.id ∉ l.map (·.id)) = [] := by
      refine filter_eq_nil_iff.mpr fun e he => ?_
      simp only [decide_eq_true_eq, not_not]
      exact mem_map_of_mem (hperm.mem_iff.mpr he)
    rw [hnone]
    exact (append_nil l).symm

theorem perm_orderDagEntriesCausally (horders : Orders localeCompare)
    (hseparates : Separates localeCompare (dagEntries.map (·.id)))
    (hids : (dagEntries.map (·.id)).Nodup) :
    (orderDagEntriesCausally localeCompare dagEntries).Perm dagEntries := by
  obtain ⟨l, hgreedy, heq⟩ := orderDagEntriesCausally_eq localeCompare horders hseparates hids
  have hl : ∀ e ∈ l, e ∈ dagEntries := fun e he => (hgreedy.mem he).1
  have hsort := perm_sortBy (compareByCreatedAtThenId localeCompare)
    (dagEntries.filter fun entry => entry.id ∉ l.map (·.id))
  rw [heq]
  refine (perm_ext_iff_of_nodup ?_ hids.of_map).mpr fun e => ?_
  · refine nodup_append.mpr ⟨hgreedy.nodup, hsort.nodup_iff.mpr (hids.of_map.filter _),
      fun e he e' he' heq => ?_⟩
    have hnot := (mem_filter.mp (hsort.mem_iff.mp he')).2
    exact of_decide_eq_true hnot (mem_map_of_mem (heq ▸ he))
  · rw [mem_append, hsort.mem_iff, mem_filter, decide_eq_true_eq]
    constructor
    · rintro (he | ⟨he, -⟩)
      · exact hl e he
      · exact he
    · intro he
      by_cases hin : e ∈ l
      · exact .inl hin
      · exact .inr ⟨he, fun hmem => hin ((mem_map_id_iff hids hl he).mp hmem)⟩

/-- No entry needs itself, however indirectly. -/
def AcyclicDag (dagEntries : List StoreEntryMetadata) : Prop :=
  Acyclic fun e d => DagNeeds dagEntries e d ∧ d ∈ dagEntries

/-- **Without cycles the order is the greedy one.** -/
theorem greedyBy_orderDagEntriesCausally (horders : Orders localeCompare)
    (hseparates : Separates localeCompare (dagEntries.map (·.id)))
    (hids : (dagEntries.map (·.id)).Nodup) (hacyclic : AcyclicDag dagEntries) :
    GreedyBy (GoesBefore localeCompare) {e | e ∈ dagEntries} (DagNeeds dagEntries) ∅
      (orderDagEntriesCausally localeCompare dagEntries) := by
  obtain ⟨l, hgreedy, heq⟩ := orderDagEntriesCausally_eq localeCompare horders hseparates hids
  have hnone : dagEntries.filter (fun entry => entry.id ∉ l.map (·.id)) = [] := by
    refine filter_eq_nil_iff.mpr fun e he => ?_
    simp only [decide_eq_true_eq, not_not]
    have hin := (hgreedy.exhausts (finite_toSet dagEntries) hacyclic he).resolve_left
      (Set.notMem_empty e)
    exact mem_map_of_mem hin
  rw [hnone] at heq
  rw [heq]
  exact (append_nil l).symm ▸ hgreedy

theorem dagNeeds_perm {dagEntries' : List StoreEntryMetadata}
    (hids : (dagEntries.map (·.id)).Nodup) (hperm : dagEntries'.Perm dagEntries) :
    DagNeeds dagEntries' = DagNeeds dagEntries := by
  have hids' : (dagEntries'.map (·.id)).Nodup := (hperm.map _).nodup_iff.mpr hids
  funext e d
  have hhas : ∀ id, (entriesById dagEntries').has id = true ↔ (entriesById dagEntries).has id = true := by
    intro id
    rw [has_iff, has_iff]
    refine exists_congr fun e => ?_
    rw [get?_entriesById hids, get?_entriesById hids', hperm.mem_iff]
  simp only [DagNeeds, depsOf, mem_filter, hhas]

end Loop

/-- **The timeline is the least causal order**: a permutation in any case; without cycles no
dependency comes after what depends on it, every other such order is greater, the order of the list
does not matter, and a plain sort that is such an order is the result. -/
theorem orderDagEntriesCausally_spec (localeCompare : JSString → JSString → ℤ)
    (horders : Orders localeCompare) (dagEntries : List StoreEntryMetadata)
    (hids : (dagEntries.map (·.id)).Nodup)
    (hseparates : Separates localeCompare (dagEntries.map (·.id))) :
    (orderDagEntriesCausally localeCompare dagEntries).Perm dagEntries
      ∧ (AcyclicDag dagEntries →
        Causal dagEntries (orderDagEntriesCausally localeCompare dagEntries)
        ∧ (∀ l, l.Perm dagEntries → Causal dagEntries l →
          orderDagEntriesCausally localeCompare dagEntries = l
            ∨ List.Lex (GoesBefore localeCompare) (orderDagEntriesCausally localeCompare dagEntries) l)
        ∧ (∀ dagEntries', dagEntries'.Perm dagEntries →
          orderDagEntriesCausally localeCompare dagEntries'
            = orderDagEntriesCausally localeCompare dagEntries)
        ∧ (Causal dagEntries (sortBy (compareByCreatedAtThenId localeCompare) dagEntries) →
          orderDagEntriesCausally localeCompare dagEntries
            = sortBy (compareByCreatedAtThenId localeCompare) dagEntries)) := by
  have hperm := perm_orderDagEntriesCausally horders hseparates hids
  refine ⟨hperm, fun hacyclic => ?_⟩
  have hgreedy := greedyBy_orderDagEntriesCausally horders hseparates hids hacyclic
  have hcmp := orders_compareByCreatedAtThenId horders
  have hleast : ∀ l, l.Perm dagEntries → Causal dagEntries l →
      orderDagEntriesCausally localeCompare dagEntries = l
        ∨ List.Lex (GoesBefore localeCompare) (orderDagEntriesCausally localeCompare dagEntries) l := by
    intro l hl hcausal
    refine hgreedy.least (fun e he hself => hacyclic e (.single ⟨hself, he⟩))
      (hl.nodup_iff.mpr hids.of_map) (fun e => ?_) hcausal
    rw [hl.mem_iff]
    exact (and_iff_left (Set.notMem_empty e)).symm
  refine ⟨hgreedy.extends_needs, hleast, fun dagEntries' hperm' => ?_, fun hcausal => ?_⟩
  · have hids' : (dagEntries'.map (·.id)).Nodup := (hperm'.map _).nodup_iff.mpr hids
    have hneeds := dagNeeds_perm hids hperm'
    have hacyclic' : AcyclicDag dagEntries' := by
      rw [AcyclicDag] at hacyclic ⊢
      simpa only [hneeds, hperm'.mem_iff] using hacyclic
    have hgreedy' := greedyBy_orderDagEntriesCausally horders
      (hseparates.of_subset (hperm'.map _).subset) hids' hacyclic'
    rw [hneeds, show {e | e ∈ dagEntries'} = {e | e ∈ dagEntries} from
      Set.ext fun e => hperm'.mem_iff] at hgreedy'
    refine hgreedy'.unique (fun e e' hlt hgt => ?_) hgreedy
    exact absurd ((hcmp.swap e e').mp hgt) (not_lt.mpr (le_of_lt hlt))
  · refine (hleast _ (perm_sortBy _ _) hcausal).resolve_right ?_
    refine not_lex_of_sorted (hperm.trans (perm_sortBy _ _).symm) ?_ fun e hlt => ?_
    · refine (pairwise_sortBy (hcmp.consistent _)).imp fun {e e'} hle hlt => ?_
      exact absurd ((hcmp.swap e e').mp hlt) (not_lt.mpr hle)
    · exact absurd (hcmp.self e) (ne_of_lt hlt)

/-- A delete that carries the time of the change before it and the smaller id, a snapshot of both and
a change made elsewhere. -/
def sameTimeEntries : List StoreEntryMetadata :=
  [.unwitnessed .docSnapshot "s" "d" "h" ["a"] 1, .unwitnessed .docDelete "a" "d" "h" ["b", "b"] 1,
    .unwitnessed .docChange "b" "d" "h" ["gone"] 1, .unwitnessed .docChange "e" "d" "h" [] 0]

/-- The delete comes after the change. -/
theorem orderDagEntriesCausally_spec_sameTimeEntries :
    (orderDagEntriesCausally compareByOrder sameTimeEntries).map (·.id) = ["e", "b", "a", "s"]
      ∧ Causal sameTimeEntries (orderDagEntriesCausally compareByOrder sameTimeEntries) := by
  refine ⟨by decide +kernel, ((orderDagEntriesCausally_spec compareByOrder Orders.ofLinearOrder
    sameTimeEntries (by decide +kernel) (separates_compareByOrder _)).2 ?_).1⟩
  let rank : StoreEntryMetadata → ℕ := fun e =>
    if e ∈ sameTimeEntries then if e.id = "s" then 2 else if e.id = "a" then 1 else 0 else 3
  have hin : ∀ e ∈ sameTimeEntries, ∀ d ∈ sameTimeEntries,
      d.id ∈ depsOf (entriesById sameTimeEntries) e → rank d < rank e := by decide +kernel
  have hout : ∀ d ∈ sameTimeEntries, rank d < 3 := by decide +kernel
  refine acyclic_of_rank rank ?_
  rintro e d ⟨hneeds, hd⟩
  by_cases he : e ∈ sameTimeEntries
  · exact hin e he d hd hneeds
  · exact (hout d hd).trans_eq (if_neg he).symm

end MindooDB
