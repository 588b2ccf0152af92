import MindooDB.View.Forward

/-!
# View/Backward — walking a view backward

`gotoPrev` asks whether the entry it stands at, and the sibling it goes to, pass the type filter,
and gives up when one does not.  So `entriesBackward` reverses `entriesForward` exactly when no
entry the filter drops is asked about before one it keeps
(`entriesBackward_eq_reverse_iff`).

`tour` is what a backward walk would ask about, in order, if it never gave up.
-/

namespace MindooDB

open Forest List Option

/-- What a backward walk asks about: a sibling it goes to, or an entry it stops at. -/
structure Probe (α : Type*) where
  entry : α
  stop : Bool

namespace Navigator

variable {α : Type*} {t : ViewTree α} (nav : Navigator t)

/-- What `getCurrentEntry` asks. -/
def passes (entry : α) : Bool := nav.isVisible entry && nav.includes entry

/-- Going to siblings from the last to the first, each asked about before it is entered. -/
def askedAll (parts : List (α × List (Probe α))) : List (Probe α) :=
  parts.reverse.flatMap fun part => ⟨part.1, false⟩ :: part.2

/-- **What a backward walk asks about in an entry** that it enters at the deepest end: the last
child is entered unasked. -/
def probes : α → List (Probe α) :=
  t.fold nav.isVisible fun e parts =>
    (if nav.isExpanded e then (askedAll parts).tail else []) ++ [⟨e, true⟩]

/-- Going to the siblings `l` from the last to the first. -/
def asked (l : List α) : List (Probe α) := askedAll (l.map fun c => (c, nav.probes c))

/-- The probes of a whole backward walk. -/
def tour : List (Probe α) := (nav.asked (t.shown nav.isVisible nav.topEntry)).tail

/-- What a cursor has behind it. -/
def behind : EntryStack α → List (Probe α)
  | [] => []
  | info :: stack =>
    nav.asked ((info.childEntries.take (info.currentIndex.getD 0)).filter nav.isVisible)
      ++ (getCurrentEntryRaw stack).toList.map (⟨·, true⟩) ++ behind stack

/-- Every level of a cursor stands at an entry. -/
def Placed : EntryStack α → Prop
  | [] => True
  | info :: stack => (∃ entry, getCurrentEntryRaw (info :: stack) = some entry) ∧ Placed stack

/-- What a walk that gives up at the first entry that does not pass yields of its probes. -/
def yields (probes : List (Probe α)) : List α :=
  ((probes.takeWhile fun p => nav.passes p.entry).filter Probe.stop).map Probe.entry

variable {nav}

theorem probes_eq (e : α) : nav.probes e
    = (if nav.isExpanded e then (nav.asked (t.shown nav.isVisible e)).tail else [])
      ++ [⟨e, true⟩] := by
  rw [probes, fold_eq]
  rfl

theorem asked_append_singleton (l : List α) (c : α) :
    nav.asked (l ++ [c]) = ⟨c, false⟩ :: (nav.probes c ++ nav.asked l) := by
  simp [asked, askedAll]

theorem probes_ne_nil (e : α) : nav.probes e ≠ [] := by
  rw [probes_eq]
  simp

/-! ## The moves -/

theorem lastBelow_eq_some {p : α → Bool} {es : List α} {stop i : ℕ}
    (h : lastBelow p es stop = some i) :
    ∃ e, es[i]? = some e ∧ (es.take stop).filter p = (es.take i).filter p ++ [e] := by
  induction stop with
  | zero => simp [lastBelow] at h
  | succ n ih =>
    rw [lastBelow] at h
    rw [take_add_one, filter_append]
    cases he : es[n]? with
    | none =>
      rw [he, any_none, if_neg Bool.false_ne_true] at h
      simpa using ih h
    | some e =>
      rw [he, any_some] at h
      split at h
      · rename_i hp
        obtain rfl := some.inj h
        exact ⟨e, he, by simp [hp]⟩
      · rename_i hp
        simpa [hp] using ih h

theorem lastBelow_eq_none {p : α → Bool} {es : List α} {stop : ℕ}
    (h : lastBelow p es stop = none) : (es.take stop).filter p = [] := by
  induction stop with
  | zero => simp
  | succ n ih =>
    rw [lastBelow] at h
    rw [take_add_one, filter_append]
    cases he : es[n]? with
    | none =>
      rw [he, any_none, if_neg Bool.false_ne_true] at h
      simpa using ih h
    | some e =>
      rw [he, any_some] at h
      split at h
      · exact nomatch h
      · rename_i hp
        simpa [hp] using ih h

/-- A cursor has stopped at the first of a list of probes and has the others behind it. -/
def StoppedAt (nav : Navigator t) (ahead : List (Probe α)) (stack : EntryStack α) : Prop :=
  Placed stack ∧
    ∃ entry, getCurrentEntryRaw stack = some entry ∧ ahead = ⟨entry, true⟩ :: nav.behind stack

variable {stack : EntryStack α}

variable (nav) in
theorem gotoDeepestExpandedDescendant_spec {fuel : ℕ} {entry : α}
    (hplaced : Placed stack) (hcur : getCurrentEntryRaw stack = some entry)
    (hfuel : (nav.probes entry).length ≤ fuel) :
    ∃ next, nav.gotoDeepestExpandedDescendant fuel entry stack = some next
      ∧ nav.StoppedAt (nav.probes entry ++ nav.behind stack) next := by
  induction fuel generalizing entry stack with
  | zero => exact absurd (length_eq_zero_iff.mp (Nat.le_zero.mp hfuel)) (probes_ne_nil entry)
  | succ fuel ih =>
    rw [gotoDeepestExpandedDescendant]
    -- with no visible child below it, the walk stops at the entry itself
    have hstay : (if nav.isExpanded entry then
          (nav.asked (t.shown nav.isVisible entry)).tail else []) = [] →
        nav.StoppedAt (nav.probes entry ++ nav.behind stack) stack := by
      intro hnil
      exact ⟨hplaced, entry, hcur, by rw [probes_eq, hnil]; rfl⟩
    split
    · rename_i hopen
      have hexpanded : nav.isExpanded entry = true := (Bool.and_eq_true_iff.mp hopen).2
      rw [if_pos hexpanded] at hstay
      simp only [createTraversalInfo]
      cases hlast : lastBelow nav.isVisible (t.children entry) (t.children entry).length with
      | none =>
        have hnil := lastBelow_eq_none hlast
        rw [take_length] at hnil
        exact ⟨stack, rfl, hstay (by rw [shown, hnil]; rfl)⟩
      | some i =>
        obtain ⟨child, hchild, hfilter⟩ := lastBelow_eq_some hlast
        rw [take_length] at hfilter
        have hshown : t.shown nav.isVisible entry
            = ((t.children entry).take i).filter nav.isVisible ++ [child] := hfilter
        have hprobes : nav.probes entry = nav.probes child
            ++ nav.asked (((t.children entry).take i).filter nav.isVisible) ++ [⟨entry, true⟩] := by
          rw [probes_eq, if_pos hexpanded, hshown, asked_append_singleton, tail_cons]
        simp only [getCurrentEntryRaw, bind_some, hchild]
        have hcur' : getCurrentEntryRaw (⟨entry, t.children entry, some i⟩ :: stack) = some child := by
          simp [getCurrentEntryRaw, hchild]
        have hlen : (nav.probes child).length ≤ fuel := by
          simp only [hprobes, length_append, length_singleton] at hfuel
          omega
        have hplaced' : Placed (⟨entry, t.children entry, some i⟩ :: stack) :=
          ⟨⟨child, hcur'⟩, hplaced⟩
        obtain ⟨next, hnext, hstop⟩ := ih hplaced' hcur' hlen
        refine ⟨next, hnext, ?_⟩
        rw [hprobes]
        simpa [behind, hcur] using hstop
    · rename_i hopen
      refine ⟨stack, rfl, hstay ?_⟩
      split
      · rename_i hexpanded
        have hchildren : t.children entry = [] := by
          rw [hexpanded, Bool.and_true, t.childCount_eq] at hopen
          simpa using hopen
        simp [shown, hchildren, asked, askedAll]
      · rfl

theorem gotoPrevSibling_spec {next : EntryStack α} (hplaced : Placed stack)
    (h : nav.gotoPrevSibling stack = some next) :
    Placed next ∧ ∃ sibling, getCurrentEntryRaw next = some sibling
      ∧ nav.behind stack = ⟨sibling, false⟩ :: (nav.probes sibling ++ nav.behind next) := by
  cases stack with
  | nil => simp [gotoPrevSibling] at h
  | cons info stack =>
    obtain ⟨i, hi, rfl⟩ := map_eq_some_iff.mp h
    obtain ⟨sibling, hsibling, hfilter⟩ := lastBelow_eq_some hi
    have hcur : getCurrentEntryRaw ({ info with currentIndex := some i } :: stack)
        = some sibling := hsibling
    refine ⟨⟨⟨sibling, hcur⟩, hplaced.2⟩, sibling, hcur, ?_⟩
    rw [behind, hfilter, asked_append_singleton]
    simp [behind]

theorem behind_of_gotoPrevSibling {info : TraversalInfo α}
    (h : nav.gotoPrevSibling (info :: stack) = none) : nav.behind (info :: stack)
      = (getCurrentEntryRaw stack).toList.map (⟨·, true⟩) ++ nav.behind stack := by
  have hnil := lastBelow_eq_none (map_eq_none_iff.mp h)
  rw [behind, hnil]
  rfl

@[simp] theorem yields_cons (entry : α) (stop : Bool) (rest : List (Probe α)) :
    nav.yields (⟨entry, stop⟩ :: rest) = if nav.passes entry then
      (if stop then entry :: nav.yields rest else nav.yields rest) else [] := by
  cases stop <;> by_cases h : nav.passes entry = true <;> simp [yields, h]

variable (nav) in
theorem getCurrentEntry_of_passes {entry : α} {stack : EntryStack α}
    (h : getCurrentEntryRaw stack = some entry) :
    nav.getCurrentEntry stack = if nav.passes entry then some entry else none := by
  rw [getCurrentEntry, h]
  simp [Option.filter, passes]

/-- A walk that stands at an entry the filter drops has come to its end. -/
theorem yieldBackward_of_dropped (fuel : ℕ) {entry : α}
    (hcur : getCurrentEntryRaw stack = some entry) (h : nav.passes entry = false) :
    nav.yieldBackward (fuel + 1) stack = some [] := by
  have hentry := getCurrentEntry_of_passes nav hcur
  rw [h, if_neg Bool.false_ne_true] at hentry
  rw [yieldBackward, gotoPrev]
  simp [hentry]

variable (nav) in
/-- **What a backward walk yields from where it stands.** -/
theorem yieldBackward_spec {fuel : ℕ} {entry : α} {stack : EntryStack α} (hplaced : Placed stack)
    (hcur : getCurrentEntryRaw stack = some entry) (hfuel : (nav.behind stack).length + 1 < fuel) :
    nav.yieldBackward fuel stack = some (nav.yields (⟨entry, true⟩ :: nav.behind stack)) := by
  induction fuel generalizing entry stack with
  | zero => exact nomatch hfuel
  | succ fuel ih =>
    by_cases hpass : nav.passes entry = true
    swap
    · rw [yieldBackward_of_dropped fuel hcur (by simpa using hpass)]
      simp [hpass]
    · have hentry := getCurrentEntry_of_passes nav hcur
      rw [if_pos hpass] at hentry
      rw [yieldBackward, gotoPrev]
      simp only [hentry]
      cases hprev : nav.gotoPrevSibling stack with
      | some s =>
        obtain ⟨hplaced', sibling, hsibling, hbehind⟩ := gotoPrevSibling_spec hplaced hprev
        have hlen := congrArg List.length hbehind
        simp only [length_cons, length_append] at hlen
        have hat := getCurrentEntry_of_passes nav hsibling
        by_cases hs : nav.passes sibling = true
        · rw [if_pos hs] at hat
          obtain ⟨next, hnext, hplacedNext, last, hlast, hstop⟩ :=
            gotoDeepestExpandedDescendant_spec nav hplaced' hsibling (show _ ≤ fuel by omega)
          have hlenNext := congrArg List.length hstop
          simp only [length_cons, length_append] at hlenNext
          have hrec := ih hplacedNext hlast (by omega)
          simp [hat, hnext, hrec, hbehind, hstop, hs, hpass]
        · rw [if_neg hs] at hat
          obtain ⟨n, rfl⟩ : ∃ n, fuel = n + 1 := ⟨fuel - 1, by omega⟩
          have hend := yieldBackward_of_dropped n hsibling (by simpa using hs)
          simp [hat, hend, hbehind, hs, hpass]
      | none =>
        match stack, hplaced with
        | [], _ => simp [getCurrentEntryRaw] at hcur
        | [info], _ =>
          have hbehind := behind_of_gotoPrevSibling hprev
          have hend : nav.behind [info] = [] := by rw [hbehind]; rfl
          simp [gotoParent, hend, hpass, yields]
        | info :: parent :: stack, hplaced =>
          obtain ⟨above, habove⟩ := hplaced.2.1
          have hbehind := behind_of_gotoPrevSibling hprev
          rw [habove] at hbehind
          have hlen := congrArg List.length hbehind
          simp at hlen
          have hrec := ih hplaced.2 habove (by omega)
          simp only [gotoParent, hbehind]
          simp [hrec, hpass]

/-- The backward walk from the last entry. -/
theorem entriesBackward_spec (nav : Navigator t) (above : EntryStack α) (i : Option ℕ) {fuel : ℕ}
    (hfuel : nav.tour.length < fuel) :
    nav.entriesBackward fuel
        (above ++ [{ createTraversalInfo t nav.topEntry with currentIndex := i }])
      = some (nav.yields nav.tour) := by
  rw [entriesBackward, gotoLast]
  simp only [getLast?_append, getLast?_singleton, some_or, createTraversalInfo]
  cases hlast : lastBelow nav.isVisible (t.children nav.topEntry)
    (t.children nav.topEntry).length with
  | none =>
    have hnil := lastBelow_eq_none hlast
    rw [take_length] at hnil
    simp [tour, shown, hnil, asked, askedAll, yields]
  | some j =>
    obtain ⟨entry, hentry, hfilter⟩ := lastBelow_eq_some hlast
    rw [take_length] at hfilter
    have hcur : getCurrentEntryRaw
        [⟨nav.topEntry, t.children nav.topEntry, some j⟩] = some entry := hentry
    have htour : nav.tour = nav.probes entry
        ++ nav.behind [⟨nav.topEntry, t.children nav.topEntry, some j⟩] := by
      rw [tour, shown, hfilter, asked_append_singleton, tail_cons]
      simp [behind, getCurrentEntryRaw]
    have hlen := congrArg List.length htour
    rw [length_append] at hlen
    have hstart : Placed [⟨nav.topEntry, t.children nav.topEntry, some j⟩] :=
      ⟨⟨entry, hcur⟩, trivial⟩
    obtain ⟨next, hnext, hplaced, last, hcurLast, hstop⟩ :=
      gotoDeepestExpandedDescendant_spec nav hstart hcur (show _ ≤ fuel by omega)
    rw [← htour] at hstop
    have hlen' := congrArg List.length hstop
    rw [length_cons] at hlen'
    have hyield := yieldBackward_spec nav hplaced hcurLast (show _ < fuel by omega)
    simp [hcur, hnext, hyield, hstop]

/-! ## The tour and the pre-order listing -/

variable (nav) in
/-- The entries a backward walk can come to, in forward order. -/
def touched : List α := t.below nav.isVisible nav.isExpanded nav.topEntry

/-- The entries among the probes that are stopped at. -/
def stops (probes : List (Probe α)) : List α := (probes.filter Probe.stop).map Probe.entry

theorem asked_eq (l : List α) :
    nav.asked l = l.reverse.flatMap fun c => ⟨c, false⟩ :: nav.probes c := by
  simp [asked, askedAll, ← map_reverse, flatMap_map]

theorem stops_tail_asked (l : List α) : stops (nav.asked l).tail = stops (nav.asked l) := by
  induction l using List.reverseRecOn with
  | nil => rfl
  | append_singleton l c _ => rw [asked_append_singleton]; rfl

theorem stops_asked {l : List α}
    (h : ∀ c ∈ l, stops (nav.probes c) = (t.preorder nav.isVisible nav.isExpanded c).reverse) :
    stops (nav.asked l) = (l.flatMap (t.preorder nav.isVisible nav.isExpanded)).reverse := by
  induction l with
  | nil => rfl
  | cons c l ih =>
    have hc : stops (⟨c, false⟩ :: nav.probes c)
        = (t.preorder nav.isVisible nav.isExpanded c).reverse := h c (by simp)
    have hl := ih fun d hd => h d (by simp [hd])
    rw [asked_eq] at hl ⊢
    rw [reverse_cons, flatMap_append, flatMap_singleton, flatMap_cons, reverse_append, ← hl, ← hc]
    simp [stops]

/-- **An entry is stopped at after what is shown below it.** -/
theorem stops_probes (e : α) :
    stops (nav.probes e) = (t.preorder nav.isVisible nav.isExpanded e).reverse := by
  induction e using t.induction_down with
  | h e ih =>
    rw [probes_eq, preorder_eq, reverse_cons]
    have hinside := stops_asked (l := t.shown nav.isVisible e)
      fun c hc => ih c (mem_children_of_mem_shown hc)
    rw [← stops_tail_asked] at hinside
    split
    · rw [below, ← hinside]
      simp [stops]
    · simp [stops]

theorem stops_tour : stops nav.tour = nav.touched.reverse := by
  rw [tour, stops_tail_asked, stops_asked fun c _ => stops_probes c]
  rfl

theorem entry_mem_preorder {e : α} {a : Probe α} (h : a ∈ nav.probes e) :
    a.entry ∈ t.preorder nav.isVisible nav.isExpanded e := by
  induction e using t.induction_down generalizing a with
  | h e ih =>
    rw [probes_eq, mem_append, mem_singleton] at h
    rw [preorder_eq]
    rcases h with h | rfl
    · split at h
      · rename_i hexpanded
        rw [if_pos hexpanded]
        have hmem := mem_of_mem_tail h
        rw [asked_eq, mem_flatMap] at hmem
        obtain ⟨c, hc, ha⟩ := hmem
        have hc' := mem_reverse.mp hc
        refine mem_cons_of_mem _ (mem_flatMap.mpr ⟨c, hc', ?_⟩)
        rcases mem_cons.mp ha with rfl | ha
        · exact mem_preorder_self c
        · exact ih c (mem_children_of_mem_shown hc') ha
      · exact nomatch h
    · exact mem_cons_self

theorem mem_stops {ps : List (Probe α)} {y : α} : y ∈ stops ps ↔ ⟨y, true⟩ ∈ ps := by
  rw [stops, List.mem_map]
  constructor
  · rintro ⟨⟨y', stop⟩, hy, rfl⟩
    obtain ⟨hmem, rfl⟩ := mem_filter.mp hy
    exact hmem
  · intro hy
    exact ⟨⟨y, true⟩, mem_filter.mpr ⟨hy, rfl⟩, rfl⟩

/-! ## When no dropped entry is asked about before a kept one -/

variable (nav) in
/-- Of two probes, the earlier does not end the walk before the later one yields. -/
def LetsPass (a b : Probe α) : Prop :=
  b.stop = true → nav.includes b.entry = true → nav.includes a.entry = true

variable (nav) in
/-- Of two entries in forward order, the later is not dropped when the earlier is kept. -/
def KeptAfter (y x : α) : Prop := nav.includes y = true → nav.includes x = true

variable (nav) in
/-- No kept entry is shown inside a dropped child that a sibling follows. -/
def SiblingsLetPass (p : α) : Prop :=
  ∀ c ∈ (t.shown nav.isVisible p).dropLast, nav.includes c = false →
    ∀ y ∈ t.preorder nav.isVisible nav.isExpanded c, nav.includes y = false

variable (nav) in
/-- Probes that are of an entry's subtree, and stop at all of it. -/
structure Covers (ps : List (Probe α)) (e : α) : Prop where
  entry_mem : ∀ a ∈ ps, a.entry ∈ t.preorder nav.isVisible nav.isExpanded e
  stop_mem : ∀ x ∈ t.preorder nav.isVisible nav.isExpanded e, ⟨x, true⟩ ∈ ps

theorem covers_probes (e : α) : nav.Covers (nav.probes e) e :=
  ⟨fun _ ha => entry_mem_preorder ha, fun _ hx => mem_stops.mp (by
    rw [stops_probes]; exact mem_reverse.mpr hx)⟩

theorem covers_cons_probes (e : α) : nav.Covers (⟨e, false⟩ :: nav.probes e) e where
  entry_mem a ha := by
    rcases mem_cons.mp ha with rfl | ha
    · exact mem_preorder_self e
    · exact entry_mem_preorder ha
  stop_mem x hx := mem_cons_of_mem _ ((covers_probes e).stop_mem x hx)

/-- Between the probes of two siblings only their listings matter. -/
theorem Covers.letsPass_iff {c d : α} {as bs : List (Probe α)} (ha : nav.Covers as c)
    (hb : nav.Covers bs d) : (∀ a ∈ as, ∀ b ∈ bs, nav.LetsPass a b)
      ↔ ∀ y ∈ t.preorder nav.isVisible nav.isExpanded d,
          ∀ x ∈ t.preorder nav.isVisible nav.isExpanded c, nav.KeptAfter y x := by
  constructor
  · intro h y hy x hx hkept
    exact h _ (ha.stop_mem x hx) _ (hb.stop_mem y hy) rfl hkept
  · intro h a hma b hmb _ hkept
    exact h _ (hb.entry_mem b hmb) _ (ha.entry_mem a hma) hkept

theorem entry_mem_below {p : α} {a : Probe α}
    (h : a ∈ (nav.asked (t.shown nav.isVisible p)).tail) :
    a.entry ∈ t.below nav.isVisible nav.isExpanded p := by
  have hmem := mem_of_mem_tail h
  rw [asked_eq, mem_flatMap] at hmem
  obtain ⟨c, hc, ha⟩ := hmem
  exact mem_flatMap.mpr
    ⟨c, mem_reverse.mp hc, (covers_cons_probes c).entry_mem a ha⟩

theorem stop_mem_tail_asked {p y : α} (h : y ∈ t.below nav.isVisible nav.isExpanded p) :
    ⟨y, true⟩ ∈ (nav.asked (t.shown nav.isVisible p)).tail := by
  refine mem_stops.mp ?_
  rw [stops_tail_asked, stops_asked fun c _ => stops_probes c]
  exact mem_reverse.mpr h

/-- Asking about a sibling before it is entered. -/
theorem letsPass_look_iff {c : α} : (∀ b ∈ nav.probes c, nav.LetsPass ⟨c, false⟩ b)
    ↔ (nav.includes c = false →
        ∀ y ∈ t.preorder nav.isVisible nav.isExpanded c, nav.includes y = false) := by
  constructor
  · intro h hc y hy
    by_contra hkept
    rw [Bool.not_eq_false] at hkept
    have := h ⟨y, true⟩ ((covers_probes c).stop_mem y hy) rfl hkept
    exact nomatch hc.symm.trans this
  · intro h b hb hstop hkept
    by_contra hc
    rw [Bool.not_eq_true] at hc
    exact absurd ((h hc _ (entry_mem_preorder hb)).symm.trans hkept) Bool.false_ne_true

/-- What makes a list of siblings' subtrees let a walk pass. -/
theorem pairwise_asked_iff {l : List α} : (nav.asked l).Pairwise nav.LetsPass
    ↔ (∀ c ∈ l, (nav.probes c).Pairwise nav.LetsPass)
      ∧ (∀ c ∈ l, nav.includes c = false →
          ∀ y ∈ t.preorder nav.isVisible nav.isExpanded c, nav.includes y = false)
      ∧ l.Pairwise (fun d c => ∀ y ∈ t.preorder nav.isVisible nav.isExpanded d,
          ∀ x ∈ t.preorder nav.isVisible nav.isExpanded c, nav.KeptAfter y x) := by
  rw [asked_eq, pairwise_flatMap, pairwise_reverse]
  simp only [mem_reverse, pairwise_cons, letsPass_look_iff,
    (covers_cons_probes _).letsPass_iff (covers_cons_probes _)]
  constructor
  · rintro ⟨h, hpair⟩
    exact ⟨fun c hc => (h c hc).2, fun c hc => (h c hc).1, hpair⟩
  · rintro ⟨hprobes, hlook, hpair⟩
    exact ⟨fun c hc => ⟨hlook c hc, hprobes c hc⟩, hpair⟩

/-- The same, the last sibling being entered unasked. -/
theorem pairwise_tail_asked_iff {l : List α} : (nav.asked l).tail.Pairwise nav.LetsPass
    ↔ (∀ c ∈ l, (nav.probes c).Pairwise nav.LetsPass)
      ∧ (∀ c ∈ l.dropLast, nav.includes c = false →
          ∀ y ∈ t.preorder nav.isVisible nav.isExpanded c, nav.includes y = false)
      ∧ l.Pairwise (fun d c => ∀ y ∈ t.preorder nav.isVisible nav.isExpanded d,
          ∀ x ∈ t.preorder nav.isVisible nav.isExpanded c, nav.KeptAfter y x) := by
  induction l using List.reverseRecOn with
  | nil => simp [asked, askedAll]
  | append_singleton l c _ =>
    rw [asked_append_singleton, tail_cons, pairwise_append, dropLast_concat,
      pairwise_asked_iff, pairwise_append]
    have hcross : (∀ a ∈ nav.probes c, ∀ b ∈ nav.asked l, nav.LetsPass a b)
        ↔ ∀ d ∈ l, ∀ y ∈ t.preorder nav.isVisible nav.isExpanded d,
            ∀ x ∈ t.preorder nav.isVisible nav.isExpanded c, nav.KeptAfter y x := by
      constructor
      · intro h d hd
        refine ((covers_probes c).letsPass_iff (covers_cons_probes d)).mp fun a ha b hb => ?_
        refine h a ha b ?_
        rw [asked_eq]
        exact mem_flatMap.mpr ⟨d, mem_reverse.mpr hd, hb⟩
      · intro h a ha b hb
        rw [asked_eq] at hb
        obtain ⟨d, hd, hb⟩ := mem_flatMap.mp hb
        exact ((covers_probes c).letsPass_iff (covers_cons_probes d)).mpr
          (h d (mem_reverse.mp hd)) a ha b hb
    rw [hcross]
    simp only [mem_append, mem_singleton, or_imp, forall_and, forall_eq,
      pairwise_singleton, true_and]
    tauto

/-- What is shown below an entry, from what is shown at and below each of its children. -/
theorem pairwise_tail_asked_shown_iff {p : α}
    (h : ∀ c ∈ t.shown nav.isVisible p, (nav.probes c).Pairwise nav.LetsPass
      ↔ (t.preorder nav.isVisible nav.isExpanded c).Pairwise nav.KeptAfter
        ∧ ∀ q ∈ t.preorder nav.isVisible nav.isExpanded c, nav.isExpanded q = true →
            nav.SiblingsLetPass q) :
    (nav.asked (t.shown nav.isVisible p)).tail.Pairwise nav.LetsPass
      ↔ (t.below nav.isVisible nav.isExpanded p).Pairwise nav.KeptAfter
        ∧ nav.SiblingsLetPass p
        ∧ ∀ q ∈ t.below nav.isVisible nav.isExpanded p, nav.isExpanded q = true →
            nav.SiblingsLetPass q := by
  rw [pairwise_tail_asked_iff, below, pairwise_flatMap]
  constructor
  · rintro ⟨hprobes, hsiblings, hcross⟩
    refine ⟨⟨fun c hc => ((h c hc).mp (hprobes c hc)).1, hcross⟩, hsiblings, fun q hq => ?_⟩
    obtain ⟨c, hc, hqc⟩ := mem_flatMap.mp hq
    exact ((h c hc).mp (hprobes c hc)).2 q hqc
  · rintro ⟨⟨hkept, hcross⟩, hsiblings, hopen⟩
    exact ⟨fun c hc => (h c hc).mpr ⟨hkept c hc, fun q hq =>
      hopen q (mem_flatMap.mpr ⟨c, hc, hq⟩)⟩, hsiblings, hcross⟩

/-- **The walk through an entry lets everything pass** exactly when after a kept entry nothing is
dropped and no dropped sibling stands before kept ones. -/
theorem pairwise_probes_iff (e : α) : (nav.probes e).Pairwise nav.LetsPass
    ↔ (t.preorder nav.isVisible nav.isExpanded e).Pairwise nav.KeptAfter
      ∧ ∀ p ∈ t.preorder nav.isVisible nav.isExpanded e, nav.isExpanded p = true →
          nav.SiblingsLetPass p := by
  induction e using t.induction_down with
  | h e ih =>
    rw [probes_eq, preorder_eq]
    split
    · rename_i hexpanded
      have hbelow := pairwise_tail_asked_shown_iff (p := e)
        fun c hc => ih c (mem_children_of_mem_shown hc)
      have hlast : (∀ a ∈ (nav.asked (t.shown nav.isVisible e)).tail,
          ∀ b ∈ [(⟨e, true⟩ : Probe α)], nav.LetsPass a b)
          ↔ ∀ x ∈ t.below nav.isVisible nav.isExpanded e, nav.KeptAfter e x := by
        simp only [mem_singleton, forall_eq]
        exact ⟨fun h x hx => h _ (stop_mem_tail_asked hx) rfl,
          fun h a ha _ => h _ (entry_mem_below ha)⟩
      rw [pairwise_append, hbelow, hlast]
      simp only [pairwise_cons, not_mem_nil, List.Pairwise.nil, mem_cons,
        forall_eq_or_imp, hexpanded, forall_const, false_imp_iff, implies_true]
      tauto
    · rename_i hexpanded
      simp [hexpanded]

/-- **A walk that gives up still yields everything it keeps** exactly when no dropped entry is
asked about before a kept one is stopped at. -/
theorem yields_eq_iff {ps : List (Probe α)} (hvisible : ∀ a ∈ ps, nav.isVisible a.entry = true) :
    nav.yields ps = (stops ps).filter nav.includes ↔ ps.Pairwise nav.LetsPass := by
  induction ps with
  | nil => simp [yields, stops]
  | cons a ps ih =>
    obtain ⟨e, stop⟩ := a
    have hrec := ih fun a ha => hvisible a (mem_cons_of_mem _ ha)
    have hpass : nav.passes e = nav.includes e := by
      have he : nav.isVisible e = true := hvisible _ mem_cons_self
      simp [passes, he]
    rw [yields_cons, hpass, pairwise_cons]
    by_cases hkeep : nav.includes e = true
    · have hhead : ∀ b ∈ ps, nav.LetsPass ⟨e, stop⟩ b := fun _ _ _ _ => hkeep
      rw [if_pos hkeep, and_iff_right hhead, ← hrec]
      cases stop <;> simp [stops, hkeep]
    · have hfilter : (stops (⟨e, stop⟩ :: ps)).filter nav.includes
          = (stops ps).filter nav.includes := by
        cases stop <;> simp [stops, hkeep]
      rw [if_neg hkeep, hfilter, eq_comm, filter_eq_nil_iff]
      constructor
      · intro hnone
        have hdropped : ∀ b ∈ ps, b.stop = true → nav.includes b.entry = true → False := by
          intro b hb hstop hkept
          exact hnone b.entry (List.mem_map.mpr ⟨b, mem_filter.mpr ⟨hb, hstop⟩, rfl⟩) hkept
        exact ⟨fun b hb hstop hkept => (hdropped b hb hstop hkept).elim,
          pairwise_of_forall_mem_list fun _ _ b hb hstop hkept =>
            (hdropped b hb hstop hkept).elim⟩
      · rintro ⟨hhead, -⟩ x hx hkept
        exact hkeep (hhead _ (mem_stops.mp hx) rfl hkept)

/-! ## Empty categories -/

theorem descendantDocumentCount_nonneg (e : α) : 0 ≤ t.getDescendantDocumentCount e := by
  induction e using t.induction_down with
  | h e ih =>
    rw [t.descendantDocumentCount_eq]
    refine sum_nonneg fun n hn => ?_
    obtain ⟨c, hc, rfl⟩ := List.mem_map.mp hn
    split
    · exact ih c hc
    · exact Int.one_nonneg

theorem isEmptyCategory_of_child {e c : α} (h : nav.isEmptyCategory e = true)
    (hc : c ∈ t.children e) : nav.isEmptyCategory c = true := by
  simp only [isEmptyCategory, Bool.and_eq_true, decide_eq_true_eq] at h ⊢
  obtain ⟨⟨hsetting, -⟩, hzero⟩ := h
  rw [t.descendantDocumentCount_eq] at hzero
  have hterm : (if t.isCategory c then t.getDescendantDocumentCount c else 1) = 0 := by
    refine all_zero_of_le_zero_le_of_sum_eq_zero ?_ hzero (List.mem_map.mpr ⟨c, hc, rfl⟩)
    intro n hn
    obtain ⟨d, -, rfl⟩ := List.mem_map.mp hn
    split
    · exact descendantDocumentCount_nonneg d
    · exact Int.one_nonneg
  split at hterm
  · rename_i hcat
    exact ⟨⟨hsetting, hcat⟩, hterm⟩
  · exact absurd hterm one_ne_zero

/-- Inside an empty category there are empty categories only. -/
theorem isEmptyCategory_of_descends {e x : α} (h : nav.isEmptyCategory e = true)
    (hx : t.Descends e x) : nav.isEmptyCategory x = true := by
  induction hx with
  | refl => exact h
  | tail _ hc ih => exact isEmptyCategory_of_child ih hc

theorem filter_keeps_flatMap {l : List α}
    (h : ∀ c ∈ l, nav.isEmptyCategory c = false →
      (t.preorder nav.isVisibleRaw nav.isExpanded c).filter nav.keeps
        = (t.preorder nav.isVisible nav.isExpanded c).filter nav.includes) :
    ((l.filter nav.isVisibleRaw).flatMap (t.preorder nav.isVisibleRaw nav.isExpanded)).filter
        nav.keeps
      = ((l.filter nav.isVisible).flatMap (t.preorder nav.isVisible nav.isExpanded)).filter
          nav.includes := by
  induction l with
  | nil => rfl
  | cons c l ih =>
    have hrec := ih fun d hd => h d (mem_cons_of_mem _ hd)
    by_cases hraw : nav.isVisibleRaw c = true
    swap
    · simpa [hraw, isVisible] using hrec
    · by_cases hempty : nav.isEmptyCategory c = true
      · have hnone : (t.preorder nav.isVisibleRaw nav.isExpanded c).filter nav.keeps = [] := by
          refine filter_eq_nil_iff.mpr fun x hx => ?_
          simp [keeps, isEmptyCategory_of_descends hempty (descends_of_mem_preorder hx)]
        simpa [hraw, isVisible, hempty, hnone] using hrec
      · have hc := h c mem_cons_self (by simpa using hempty)
        simp [hraw, isVisible, hempty, hc]
        simpa [isVisible] using hrec

/-- **Leaving out the empty categories, or only what they would yield, is the same.** -/
theorem filter_keeps_preorder {e : α} (h : nav.isEmptyCategory e = false) :
    (t.preorder nav.isVisibleRaw nav.isExpanded e).filter nav.keeps
      = (t.preorder nav.isVisible nav.isExpanded e).filter nav.includes := by
  induction e using t.induction_down with
  | h e ih =>
    have hbelow := filter_keeps_flatMap (l := t.children e) ih
    rw [preorder_eq, preorder_eq]
    have hkeeps : nav.keeps e = nav.includes e := by simp [keeps, h]
    split
    · rw [filter_cons, filter_cons, hkeeps, below, below, shown, shown, hbelow]
    · rw [filter_cons, filter_cons, hkeeps, filter_nil, filter_nil]

theorem filter_keeps_reachable :
    nav.reachable.filter nav.keeps = nav.touched.filter nav.includes :=
  filter_keeps_flatMap fun _ _ => filter_keeps_preorder

/-! ## Backward against forward -/

variable (nav) in
/-- The backward walk yields, in the end, what the forward one does in reverse. -/
def BackwardReverses (forward backward : EntryStack α) : Prop :=
  ∃ enough, ∀ fuel, enough ≤ fuel → ∃ yielded, nav.entriesForward fuel forward = some yielded
    ∧ nav.entriesBackward fuel backward = some yielded.reverse

variable (nav) in
theorem backwardReverses_iff (above above' : EntryStack α) (i i' : Option ℕ) :
    nav.BackwardReverses
        (above ++ [{ createTraversalInfo t nav.topEntry with currentIndex := i }])
        (above' ++ [{ createTraversalInfo t nav.topEntry with currentIndex := i' }])
      ↔ nav.yields nav.tour = (stops nav.tour).filter nav.includes := by
  have hreverse : (nav.reachable.filter nav.keeps).reverse
      = (stops nav.tour).filter nav.includes := by
    rw [filter_keeps_reachable, stops_tour, filter_reverse]
  rw [← hreverse]
  constructor
  · rintro ⟨enough, h⟩
    obtain ⟨yielded, hforward, hbackward⟩ :=
      h (enough + nav.reachable.length + nav.tour.length + 1) (by omega)
    rw [entriesForward_spec nav above i (by omega)] at hforward
    rw [entriesBackward_spec nav above' i' (by omega)] at hbackward
    rw [some.inj hforward]
    exact some.inj hbackward
  · intro h
    refine ⟨nav.reachable.length + nav.tour.length + 1, fun fuel hfuel =>
      ⟨nav.reachable.filter nav.keeps, ?_, ?_⟩⟩
    · exact entriesForward_spec nav above i (by omega)
    · rw [entriesBackward_spec nav above' i' (by omega), h]

/-- **The backward walk reverses the forward one exactly when** no entry the type filter drops
comes after one it keeps, nor has one inside while a sibling follows it. -/
theorem entriesBackward_eq_reverse_iff (nav : Navigator t) (above above' : EntryStack α)
    (i i' : Option ℕ) :
    nav.BackwardReverses
        (above ++ [{ createTraversalInfo t nav.topEntry with currentIndex := i }])
        (above' ++ [{ createTraversalInfo t nav.topEntry with currentIndex := i' }])
      ↔ nav.touched.Pairwise nav.KeptAfter ∧ nav.SiblingsLetPass nav.topEntry
        ∧ ∀ p ∈ nav.touched, nav.isExpanded p = true → nav.SiblingsLetPass p := by
  have hvisible : ∀ a ∈ nav.tour, nav.isVisible a.entry = true := fun a ha =>
    visible_of_mem_below (entry_mem_below ha)
  rw [backwardReverses_iff, yields_eq_iff hvisible, tour,
    pairwise_tail_asked_shown_iff fun c _ => pairwise_probes_iff c]
  rfl

end Navigator

/-! ## Two categories, documents only -/

/-- A root `0` with the categories `1` and `2`, which hold the documents `3` and `4`. -/
def twoCategories : ViewTree (Fin 5) where
  children := ![[1, 2], [3], [4], [], []]
  parent := ![none, some 0, some 0, some 1, some 2]
  height := ![2, 1, 1, 0, 0]
  parent_of_mem {p c} := by revert p c; decide
  nodup_children := by decide
  height_lt {p c} := by revert p c; decide
  root := 0
  origin := ![ORIGIN_VIRTUALVIEW, ORIGIN_VIRTUALVIEW, ORIGIN_VIRTUALVIEW, "db", "db"]
  docId := ![("cat_8" : JSString), "cat_12", "cat_16", "d1", "d2"]
  isCategory := ![true, true, true, false, false]
  getLevel := ![-1, 0, 0, 1, 1]
  getSiblingIndex := ![0, 1, 2, 1, 1]
  getChildCount := ![2, 1, 1, 0, 0]
  getDescendantDocumentCount := ![2, 1, 1, 0, 0]
  category_of_mem {p c} := by revert p c; decide
  childCount_eq := by decide
  descendantDocumentCount_eq := by decide

/-- A reader of the documents alone, with everything expanded. -/
def documentsOnly : Navigator twoCategories where
  topEntry := 0
  withCategories := false
  withDocuments := true
  includes_some := .inr rfl
  accessCheck := none
  dontShowEmptyCategories := false
  expandedOrCollapsedEntries := ∅
  expandAllByDefault := true
  expandLevel := 0

/-- Forward both documents are yielded; backward the walk ends at the second category. -/
theorem not_backwardReverses_documentsOnly : ¬documentsOnly.BackwardReverses
    [Navigator.createTraversalInfo twoCategories 0]
    [Navigator.createTraversalInfo twoCategories 0] := by
  intro h
  have hyields := (Navigator.backwardReverses_iff documentsOnly [] [] none none).mp h
  revert hyields
  decide

end MindooDB
