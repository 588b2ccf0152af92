import MindooDB.View.Navigator

/-!
# View/Forward — walking a view forward

From the first entry on, `gotoNext` yields the shown entries parents first, less those the filters
drop (`entriesForward_eq_filter_reachable`).

`upcoming` is what a cursor still has ahead of it; one raw move takes the first of it
(`nextRaw_spec`), and `gotoNext` moves on until an entry is kept.
-/

namespace MindooDB

open Forest List Option

/-! ## The search loops -/

section Search

variable {α : Type*} {p : α → Bool}

theorem filter_of_findIdx?_eq_some {l : List α} {i : ℕ} (h : l.findIdx? p = some i) :
    ∃ e, l[i]? = some e ∧ l.filter p = e :: (l.drop (i + 1)).filter p := by
  induction l generalizing i with
  | nil => simp at h
  | cons a l ih =>
    rw [findIdx?_cons] at h
    split at h
    · rename_i ha
      obtain rfl := some.inj h
      exact ⟨a, rfl, by simp [ha]⟩
    · rename_i ha
      obtain ⟨j, hj, rfl⟩ := map_eq_some_iff.mp h
      obtain ⟨e, he, hfilter⟩ := ih hj
      exact ⟨e, he, by simpa [ha] using hfilter⟩

theorem firstFrom_eq_some {es : List α} {start i : ℕ} (h : firstFrom p es start = some i) :
    ∃ e, es[i]? = some e ∧ (es.drop start).filter p = e :: (es.drop (i + 1)).filter p := by
  obtain ⟨j, hj, rfl⟩ := map_eq_some_iff.mp h
  obtain ⟨e, he, hfilter⟩ := filter_of_findIdx?_eq_some hj
  rw [getElem?_drop] at he
  rw [drop_drop] at hfilter
  exact ⟨e, by rwa [Nat.add_comm], by rwa [show j + start + 1 = start + (j + 1) by omega]⟩

theorem firstFrom_eq_none {es : List α} {start : ℕ} (h : firstFrom p es start = none) :
    (es.drop start).filter p = [] := by
  rw [firstFrom, map_eq_none_iff, findIdx?_eq_none_iff] at h
  exact filter_eq_nil_iff.mpr fun a ha => by simp [h a ha]

end Search

namespace Navigator

variable {α : Type*} {t : ViewTree α} (nav : Navigator t)

/-! ## What a reader is shown -/

/-- **The entries reachable from the top entry** through visible, expanded ancestors, parents
first. -/
def reachable : List α := t.below nav.isVisibleRaw nav.isExpanded nav.topEntry

/-- Whether the filters keep an entry. -/
def keeps (entry : α) : Bool := !nav.isEmptyCategory entry && nav.includes entry

/-- What is shown inside an entry. -/
def inside (entry : α) : List α :=
  if nav.isExpanded entry then t.below nav.isVisibleRaw nav.isExpanded entry else []

/-- What is left at the levels of a cursor, the current entries and what is inside them gone. -/
def rest : EntryStack α → List α
  | [] => []
  | info :: stack =>
    ((info.childEntries.drop (info.currentIndex.elim 0 (· + 1))).filter nav.isVisibleRaw).flatMap
      (t.preorder nav.isVisibleRaw nav.isExpanded) ++ rest stack

/-- What a cursor standing at an entry has ahead of it. -/
def upcoming (entry : α) (stack : EntryStack α) : List α := nav.inside entry ++ nav.rest stack

variable {nav}

theorem preorder_eq_cons_inside (entry : α) :
    t.preorder nav.isVisibleRaw nav.isExpanded entry = entry :: nav.inside entry :=
  preorder_eq entry

/-- A cursor has moved to the first of a list and has the others ahead of it. -/
def MovedTo (nav : Navigator t) (ahead : List α) (stack : EntryStack α) : Prop :=
  ∃ entry, getCurrentEntryRaw stack = some entry ∧ nav.isVisibleRaw entry = true
    ∧ ahead = entry :: nav.upcoming entry stack

variable (nav) in
theorem movedTo_of_firstFrom (info : TraversalInfo α) (stack : EntryStack α) {start i : ℕ}
    (h : firstFrom nav.isVisibleRaw info.childEntries start = some i) :
    nav.MovedTo (((info.childEntries.drop start).filter nav.isVisibleRaw).flatMap
        (t.preorder nav.isVisibleRaw nav.isExpanded) ++ nav.rest stack)
      ({ info with currentIndex := some i } :: stack) := by
  obtain ⟨entry, hentry, hfilter⟩ := firstFrom_eq_some h
  refine ⟨entry, hentry, ?_, ?_⟩
  · have hmem : entry ∈ (info.childEntries.drop start).filter nav.isVisibleRaw := by simp [hfilter]
    exact (mem_filter.mp hmem).2
  · rw [hfilter, flatMap_cons, preorder_eq_cons_inside]
    simp [upcoming, rest]

variable {next stack : EntryStack α}

theorem gotoNextSiblingRaw_spec
    (h : nav.gotoNextSiblingRaw stack = some next) : nav.MovedTo (nav.rest stack) next := by
  cases stack with
  | nil => simp [gotoNextSiblingRaw, gotoNextSiblingBy] at h
  | cons info stack =>
    obtain ⟨i, hi, rfl⟩ := map_eq_some_iff.mp h
    exact movedTo_of_firstFrom nav _ stack hi

theorem rest_of_gotoNextSiblingRaw
    (h : nav.gotoNextSiblingRaw stack = none) : nav.rest stack = nav.rest stack.tail := by
  cases stack with
  | nil => rfl
  | cons info stack =>
    have hnil := firstFrom_eq_none (map_eq_none_iff.mp h)
    rw [rest, hnil]
    simp

theorem gotoNextSiblingOfParent_spec (h : nav.gotoNextSiblingOfParent stack = some next) :
    nav.MovedTo (nav.rest stack.tail) next := by
  induction stack with
  | nil => simp [gotoNextSiblingOfParent] at h
  | cons top stack ih =>
    cases stack with
    | nil => simp [gotoNextSiblingOfParent] at h
    | cons info stack =>
      rw [gotoNextSiblingOfParent] at h
      rw [tail_cons]
      cases hs : nav.gotoNextSiblingRaw (info :: stack) with
      | some s =>
        rw [hs, some_or] at h
        exact gotoNextSiblingRaw_spec (hs.trans h)
      | none =>
        rw [hs, none_or] at h
        rw [rest_of_gotoNextSiblingRaw hs]
        exact ih h

theorem rest_of_gotoNextSiblingOfParent
    (h : nav.gotoNextSiblingOfParent stack = none) : nav.rest stack.tail = [] := by
  induction stack with
  | nil => rfl
  | cons top stack ih =>
    cases stack with
    | nil => rfl
    | cons info stack =>
      rw [gotoNextSiblingOfParent, or_eq_none_iff] at h
      rw [tail_cons, rest_of_gotoNextSiblingRaw h.1]
      exact ih h.2

variable {entry : α}

theorem gotoFirstChildRaw_spec (h : nav.gotoFirstChildRaw entry stack = some next) :
    nav.MovedTo (nav.upcoming entry stack) next := by
  rw [gotoFirstChildRaw] at h
  split at h
  · rename_i hopen
    obtain ⟨i, hi, rfl⟩ := map_eq_some_iff.mp h
    have hexpanded : nav.isExpanded entry = true := (Bool.and_eq_true_iff.mp hopen).1
    rw [upcoming, inside, if_pos hexpanded]
    exact movedTo_of_firstFrom nav _ stack hi
  · exact nomatch h

theorem inside_of_gotoFirstChildRaw {entry : α} {stack : EntryStack α}
    (h : nav.gotoFirstChildRaw entry stack = none) : nav.inside entry = [] := by
  rw [inside]
  split
  · rename_i hexpanded
    rw [gotoFirstChildRaw, hexpanded, Bool.true_and] at h
    split at h
    · have hnil := firstFrom_eq_none (map_eq_none_iff.mp h)
      rw [below, shown]
      simp only [createTraversalInfo, drop_zero] at hnil
      rw [hnil, flatMap_nil]
    · rename_i hcount
      have hchildren : t.children entry = [] := by
        rw [t.childCount_eq] at hcount
        simpa using hcount
      simp [below, shown, hchildren]
  · rfl

/-- **One raw move takes the first of what is ahead.** -/
theorem nextRaw_spec
    (h : nav.nextRaw entry stack = some next) : nav.MovedTo (nav.upcoming entry stack) next := by
  rw [nextRaw, or_eq_some_iff] at h
  obtain h | ⟨hchild, h⟩ := h
  · exact gotoFirstChildRaw_spec h
  · rw [upcoming, inside_of_gotoFirstChildRaw hchild, nil_append]
    obtain h | ⟨hsibling, h⟩ := or_eq_some_iff.mp h
    · exact gotoNextSiblingRaw_spec h
    · rw [rest_of_gotoNextSiblingRaw hsibling]
      exact gotoNextSiblingOfParent_spec h

theorem upcoming_of_nextRaw
    (h : nav.nextRaw entry stack = none) : nav.upcoming entry stack = [] := by
  simp only [nextRaw, or_eq_none_iff] at h
  rw [upcoming, inside_of_gotoFirstChildRaw h.1, rest_of_gotoNextSiblingRaw h.2.1,
    rest_of_gotoNextSiblingOfParent h.2.2, nil_append]

/-! ## The walk -/

theorem getCurrentEntry_of_raw
    (h : getCurrentEntryRaw stack = some entry) (hv : nav.isVisibleRaw entry = true) :
    nav.getCurrentEntry stack = if nav.keeps entry then some entry else none := by
  rw [getCurrentEntry, h]
  simp [Option.filter, isVisible, keeps, hv]

variable (nav) in
/-- **`gotoNext` moves to the next kept entry**, and fails when there is none. -/
theorem gotoNext_spec {fuel : ℕ} (hcur : getCurrentEntryRaw stack = some entry)
    (hfuel : (nav.upcoming entry stack).length < fuel) :
    (∃ last, nav.gotoNext fuel stack = some (false, last)
        ∧ (nav.upcoming entry stack).filter nav.keeps = []) ∨
    (∃ next entry', nav.gotoNext fuel stack = some (true, next)
        ∧ getCurrentEntryRaw next = some entry'
        ∧ nav.getCurrentEntry next = some entry'
        ∧ (nav.upcoming entry stack).filter nav.keeps
            = entry' :: (nav.upcoming entry' next).filter nav.keeps
        ∧ (nav.upcoming entry' next).length < (nav.upcoming entry stack).length) := by
  induction fuel generalizing entry stack with
  | zero => exact nomatch hfuel
  | succ fuel ih =>
    cases hmove : nav.nextRaw entry stack with
    | none =>
      left
      rw [gotoNext]
      simp [hcur, hmove, upcoming_of_nextRaw hmove]
    | some next =>
      obtain ⟨entry', hcur', hvisible, hahead⟩ := nextRaw_spec hmove
      have hentry := getCurrentEntry_of_raw hcur' hvisible
      have hlen : (nav.upcoming entry stack).length
          = (nav.upcoming entry' next).length + 1 := by rw [hahead, length_cons]
      rw [gotoNext]
      simp only [hcur, hmove]
      by_cases hkeep : nav.keeps entry' = true
      · right
        rw [if_pos hkeep] at hentry
        refine ⟨next, entry', by simp [hentry], hcur', hentry, ?_, by omega⟩
        rw [hahead, filter_cons_of_pos hkeep]
      · rw [if_neg hkeep] at hentry
        have hfilter : (nav.upcoming entry stack).filter nav.keeps
            = (nav.upcoming entry' next).filter nav.keeps := by
          rw [hahead, filter_cons_of_neg hkeep]
        rcases ih hcur' (by omega) with ⟨last, hlast, hnil⟩ | ⟨s, e, hs, hrest⟩
        · left
          exact ⟨last, by simp [hentry, hlast], hfilter.trans hnil⟩
        · right
          obtain ⟨hraw, hcurrent, hkept, hlt⟩ := hrest
          exact ⟨s, e, by simp [hentry, hs], hraw, hcurrent, hfilter.trans hkept, by omega⟩

variable (nav) in
theorem yieldForward_spec {fuel : ℕ} {entry : α} {stack : EntryStack α}
    (hcur : getCurrentEntryRaw stack = some entry)
    (hfuel : (nav.upcoming entry stack).length + 1 < fuel) :
    nav.yieldForward fuel stack
      = some ((nav.getCurrentEntry stack).toList ++ (nav.upcoming entry stack).filter nav.keeps) := by
  induction fuel generalizing entry stack with
  | zero => exact nomatch hfuel
  | succ fuel ih =>
    rw [yieldForward]
    rcases gotoNext_spec nav hcur (Nat.lt_of_succ_lt_succ hfuel) with
      ⟨last, hnext, hnil⟩ | ⟨next, entry', hnext, hraw, hcurrent, hkept, hlt⟩
    · simp [hnext, hnil]
    · have hrec := ih hraw (by omega)
      simp [hnext, hrec, hcurrent, hkept]

/-- The forward walk from the first entry. -/
theorem entriesForward_spec (nav : Navigator t) (above : EntryStack α) (i : Option ℕ) {fuel : ℕ}
    (hfuel : nav.reachable.length < fuel) :
    nav.entriesForward fuel
        (above ++ [{ createTraversalInfo t nav.topEntry with currentIndex := i }])
      = some (nav.reachable.filter nav.keeps) := by
  rw [entriesForward, gotoFirst]
  simp only [getLast?_append, getLast?_singleton, some_or, createTraversalInfo]
  cases hfirst : firstFrom nav.isVisibleRaw (t.children nav.topEntry) 0 with
  | none =>
    have hnil := firstFrom_eq_none hfirst
    rw [drop_zero] at hnil
    simp [reachable, below, shown, hnil]
  | some j =>
    have hmoved : nav.MovedTo nav.reachable
        [{ createTraversalInfo t nav.topEntry with currentIndex := some j }] := by
      have h := movedTo_of_firstFrom nav (createTraversalInfo t nav.topEntry) [] hfirst
      rwa [rest, append_nil] at h
    obtain ⟨entry, hcur, hvisible, hahead⟩ := hmoved
    have hentry := getCurrentEntry_of_raw hcur hvisible
    simp only [createTraversalInfo] at hcur hentry hahead
    have hlen := congrArg List.length hahead
    rw [length_cons] at hlen
    by_cases hkeep : nav.keeps entry = true
    · rw [if_pos hkeep] at hentry
      have hyield := yieldForward_spec nav hcur (show _ < fuel by omega)
      rw [hahead, filter_cons_of_pos hkeep]
      simp [hentry, hyield]
    · rw [if_neg hkeep] at hentry
      rw [hahead, filter_cons_of_neg hkeep]
      rcases gotoNext_spec nav hcur (show _ < fuel by omega) with
        ⟨last, hnext, hnil⟩ | ⟨next, entry', hnext, hraw, hcurrent, hkept, hlt⟩
      · simp [hentry, hnext, hnil]
      · have hyield := yieldForward_spec nav hraw (show _ < fuel by omega)
        simp [hentry, hnext, hyield, hcurrent, hkept]

/-- **Walking forward ends, and yields the reachable entries that the filters keep**, parents first
and each once; from whatever the cursor of the navigator stood at before. -/
theorem entriesForward_eq_filter_reachable (nav : Navigator t) (above : EntryStack α)
    (i : Option ℕ) :
    (∃ enough, ∀ fuel, enough ≤ fuel →
      nav.entriesForward fuel
          (above ++ [{ createTraversalInfo t nav.topEntry with currentIndex := i }])
        = some (nav.reachable.filter nav.keeps)) ∧
    (nav.reachable.filter nav.keeps).Nodup :=
  ⟨⟨nav.reachable.length + 1, fun _ hfuel => entriesForward_spec nav above i hfuel⟩,
    (nodup_below _).filter _⟩

end Navigator

end MindooDB
