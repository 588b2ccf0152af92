import MindooDB.View.Flush
import MindooDB.View.Navigator

/-!
# View/Reading — a settled view, as a navigator reads it

Between two batches the entries of a view are a `ViewTree`: the counts that the navigator reads are
those of the children it is given (`viewTree`).  A navigator that shows everything comes to an entry
by the numbers on the way down to it (`gotoPosArray_siblingIndexes`).
-/

namespace MindooDB

open LinkedMap List Navigator Option ViewIndex

variable {env : Runtime} {s : ViewIndex}

/-! ## Counting children -/

theorem length_childKeys (s : ViewIndex) (p : EntryPath) :
    ((s.childKeys p).length : ℤ) = s.childrenOf true p + s.childrenOf false p := by
  have hlist : ∀ l : List (EntryPath × VirtualViewEntryData),
      ((l.filterMap fun e => if e.1 ≠ [] ∧ e.1.tail = p then some e.2.sortKey else none).length : ℤ)
        = (l.map fun e => tallyTerm (IsChild p) true e.1 e.2).sum
          + (l.map fun e => tallyTerm (IsChild p) false e.1 e.2).sum := by
    intro l
    induction l with
    | nil => rfl
    | cons e l ih =>
      by_cases hchild : IsChild p e.1
      · have hcond : e.1 ≠ [] ∧ e.1.tail = p := hchild
        rw [filterMap_cons, map_cons, map_cons, sum_cons, sum_cons]
        simp only [if_pos hcond, length_cons, Nat.cast_succ, ih]
        cases hkind : e.2.isCategory <;> simp [tallyTerm, hchild, hkind] <;> ring
      · have hcond : ¬(e.1 ≠ [] ∧ e.1.tail = p) := hchild
        rw [filterMap_cons, map_cons, map_cons, sum_cons, sum_cons]
        simp only [if_neg hcond, ih]
        simp [tallyTerm, hchild]
  exact hlist s.entries.toList

/-- The paths of the sorted children. -/
def childPaths (env : Runtime) (s : ViewIndex) (p : EntryPath) : List EntryPath :=
  (s.getChildEntries env p).map fun key => key.toKey env :: p

theorem childPaths_eq_map (env : Runtime) (s : ViewIndex) (p : EntryPath) :
    childPaths env s p = ((s.getChildEntries env p).map (·.toKey env)).map (· :: p) := by
  rw [childPaths, List.map_map]
  rfl

theorem mem_childPaths_iff (h : Cached s) (htree : Tree env s) {p q : EntryPath} :
    q ∈ childPaths env s p ↔ ∃ k e, q = k :: p ∧ s.entries.get? q = some e := by
  rw [childPaths_eq_map, List.mem_map]
  constructor
  · rintro ⟨k, hk, rfl⟩
    obtain ⟨e, he⟩ := (mem_getChildEntries_iff h htree).mp hk
    exact ⟨k, e, rfl, he⟩
  · rintro ⟨k, e, rfl, he⟩
    exact ⟨k, (mem_getChildEntries_iff h htree).mpr ⟨e, he⟩, rfl⟩

theorem nodup_childPaths (h : Cached s) (htree : Tree env s) (p : EntryPath) :
    (childPaths env s p).Nodup := by
  rw [childPaths_eq_map]
  exact (nodup_getChildEntries h htree p).map fun a b heq => (List.cons.inj heq).1

/-! ## Counting documents -/

theorem sum_map_indicator {α : Type*} [DecidableEq α] {l : List α} (hl : l.Nodup) (a : α) :
    (l.map fun b => if b = a then (1 : ℤ) else 0).sum = if a ∈ l then 1 else 0 := by
  induction l with
  | nil => rfl
  | cons b l ih =>
    obtain ⟨hnot, hl'⟩ := nodup_cons.mp hl
    rw [map_cons, sum_cons, ih hl']
    by_cases hb : b = a
    · subst hb
      simp [hnot]
    · simp [hb, Ne.symm hb]

/-- The entries at or below a path. -/
def AtOrBelow (p q : EntryPath) : Prop := p <:+ q

instance (p : EntryPath) : DecidablePred (AtOrBelow p) :=
  fun q => inferInstanceAs (Decidable (p <:+ q))

/-- Of the children of an entry, one lies above each entry below it. -/
theorem sum_atOrBelow (h : Cached s) (htree : Tree env s) (p : EntryPath) {q : EntryPath}
    {e : VirtualViewEntryData} (hget : s.entries.get? q = some e) :
    ((childPaths env s p).map fun c => tallyTerm (AtOrBelow c) false q e).sum
      = tallyTerm (IsBelow p) false q e := by
  by_cases hdoc : e.isCategory = true
  · have hzero : ∀ (P : EntryPath → Prop) [DecidablePred P], tallyTerm P false q e = 0 :=
      fun P _ => if_neg fun hboth => by cases hboth.2.symm.trans hdoc
    simp [hzero]
  rw [Bool.not_eq_true] at hdoc
  by_cases hbelow : IsBelow p q
  · obtain ⟨k, r, rfl⟩ := exists_cons_of_ne_nil hbelow.1
    -- the child on the way down
    obtain ⟨j, hj⟩ := Tree.exists_cons_suffix (hbelow.2.trans (suffix_cons k r)) fun heq =>
      absurd (heq ▸ hbelow.2 : k :: r <:+ r).length_le (by simp)
    obtain ⟨a, ha⟩ := htree.exists_of_suffix hget hj
    have hmem : j :: p ∈ childPaths env s p := (mem_childPaths_iff h htree).mpr ⟨j, a, rfl, ha⟩
    have hterm : ∀ c ∈ childPaths env s p, tallyTerm (AtOrBelow c) false (k :: r) e
        = if c = j :: p then 1 else 0 := by
      intro c hc
      obtain ⟨i, -, rfl, -⟩ := (mem_childPaths_iff h htree).mp hc
      have hiff : AtOrBelow (i :: p) (k :: r) ↔ i :: p = j :: p := by
        refine ⟨fun hi => ?_, fun heq => heq ▸ hj⟩
        exact (suffix_of_suffix_length_le hi hj (by simp)).eq_of_length (by simp)
      rw [tallyTerm]
      exact if_congr (by simp only [hiff, hdoc, and_true]) rfl rfl
    rw [map_congr_left hterm, sum_map_indicator (nodup_childPaths h htree p), if_pos hmem,
      tallyTerm, if_pos ⟨hbelow, hdoc⟩]
  · have hzero : ∀ c ∈ childPaths env s p, tallyTerm (AtOrBelow c) false q e = 0 := by
      intro c hc
      obtain ⟨i, -, rfl, -⟩ := (mem_childPaths_iff h htree).mp hc
      refine if_neg fun hboth => hbelow ?_
      have hsuffix : i :: p <:+ q := hboth.1
      cases q with
      | nil => cases suffix_nil.mp hsuffix
      | cons k r =>
        refine ⟨by simp, ?_⟩
        rcases suffix_cons_iff.mp hsuffix with heq | hr
        · obtain ⟨-, rfl⟩ := List.cons.inj heq
          exact suffix_rfl
        · exact (suffix_cons i p).trans hr
    rw [map_congr_left hzero, tallyTerm, if_neg fun hboth => hbelow hboth.1]
    simp

/-- At or below a document there is one document, below a category there are its descendants. -/
theorem tally_atOrBelow (htree : Tree env s) {c : EntryPath} {e : VirtualViewEntryData}
    (hget : s.entries.get? c = some e) : s.tally (AtOrBelow c) false
      = if e.isCategory = true then s.descendantsOf false c else 1 := by
  have hsplit : ∀ q a, s.entries.get? q = some a → tallyTerm (AtOrBelow c) false q a
      = tallyTerm (· = c) false q a + tallyTerm (IsBelow c) false q a := by
    intro q a _
    rw [tallyTerm, tallyTerm, tallyTerm]
    by_cases hq : q = c
    · subst hq
      have hnot : ¬IsBelow q q := by
        rintro ⟨hne, hsuffix⟩
        have hlength := hsuffix.length_le
        have hpos := length_pos_of_ne_nil hne
        rw [length_tail] at hlength
        omega
      have hself : AtOrBelow q q := suffix_rfl
      simp [hnot, hself]
    · have hiff : AtOrBelow c q ↔ IsBelow c q := by
        cases q with
        | nil =>
          simp only [AtOrBelow, IsBelow, suffix_nil, ne_eq, not_true, false_and, iff_false]
          exact fun heq => hq heq.symm
        | cons k r =>
          rw [isBelow_cons, AtOrBelow, suffix_cons_iff]
          exact or_iff_right (Ne.symm hq)
      simp [hq, hiff]
  have hself : s.tally (· = c) false = if e.isCategory = true then 0 else 1 := by
    have hterm : ∀ q a, s.entries.get? q = some a → tallyTerm (· = c) false q a
        = if q = c then (if e.isCategory = true then 0 else 1) else 0 := by
      intro q a ha
      rw [tallyTerm]
      by_cases hq : q = c
      · subst hq
        obtain rfl := some.inj (hget.symm.trans ha)
        cases e.isCategory <;> simp
      · simp [hq]
    rw [tally, total, sumOver_congr hterm, sumOver_delete _ _ hget, if_pos rfl]
    have hrest : (s.entries.delete c).sumOver
        (fun q _ => if q = c then (if e.isCategory = true then (0 : ℤ) else 1) else 0) = 0 := by
      refine (sumOver_congr fun q a ha => if_neg ?_).trans (sumOver_zero _)
      rintro rfl
      exact absurd ha (by simp)
    rw [hrest, zero_add]
  rw [tally, total, sumOver_congr hsplit, sumOver_add]
  change s.tally (· = c) false + s.descendantsOf false c = _
  rw [hself]
  split
  · rw [zero_add]
  · rename_i hdoc
    have hnone : s.descendantsOf false c = 0 := by
      refine tally_eq_zero fun q a ha hbelow => ?_
      obtain ⟨k, r, rfl⟩ := exists_cons_of_ne_nil hbelow.1
      obtain ⟨e', he', hcat⟩ := htree.hasCategory_of_suffix ha hbelow.2
      obtain rfl := some.inj (hget.symm.trans he')
      exact absurd hcat hdoc
    rw [hnone, add_zero]

/-- **The documents below an entry are those of its children.** -/
theorem sum_descendants (h : Cached s) (htree : Tree env s) (p : EntryPath) :
    s.descendantsOf false p = ((childPaths env s p).map fun c =>
      if ((s.entries.get? c).map (·.isCategory)).getD false then s.descendantsOf false c
      else 1).sum := by
  have hterm : ∀ c ∈ childPaths env s p,
      (if ((s.entries.get? c).map (·.isCategory)).getD false then s.descendantsOf false c else 1)
        = s.tally (AtOrBelow c) false := by
    intro c hc
    obtain ⟨k, e, rfl, he⟩ := (mem_childPaths_iff h htree).mp hc
    rw [tally_atOrBelow htree he, he]
    rfl
  rw [map_congr_left hterm]
  refine Eq.trans ?_ (sum_map_sumOver s.entries (childPaths env s p) fun c =>
    tallyTerm (AtOrBelow c) false).symm
  exact (sumOver_congr fun q e hget => sum_atOrBelow h htree p hget).symm

/-! ## The tree of a view -/

/-- More than the length of any path. -/
def depthBound (s : ViewIndex) : ℕ := (s.entries.keys.map List.length).sum

theorem length_le_depthBound {p : EntryPath} {e : VirtualViewEntryData}
    (hget : s.entries.get? p = some e) : p.length ≤ depthBound s :=
  single_le_sum (fun _ _ => Nat.zero_le _) _
    (List.mem_map_of_mem (mem_keys_iff.mpr ⟨e, hget⟩))

/-- **A view as a navigator reads it**: an entry is named by its path. -/
def viewTree (htree : Tree env s) (hcounts : HasCounts s) (hcached : Cached s) :
    ViewTree EntryPath where
  children := childPaths env s
  parent p := match p with
    | [] => none
    | _ :: p => some p
  height p := depthBound s - p.length
  parent_of_mem hc := by
    obtain ⟨k, e, rfl, -⟩ := (mem_childPaths_iff hcached htree).mp hc
    rfl
  nodup_children p := nodup_childPaths hcached htree p
  height_lt hc := by
    obtain ⟨k, e, rfl, he⟩ := (mem_childPaths_iff hcached htree).mp hc
    have hle := length_le_depthBound he
    rw [length_cons] at hle ⊢
    exact Nat.sub_lt_sub_left (Nat.lt_of_succ_le hle) (Nat.lt_succ_self _)
  root := []
  origin p := ((s.entries.get? p).map (·.origin)).getD ""
  docId p := ((s.entries.get? p).map (·.docId)).getD ""
  isCategory p := ((s.entries.get? p).map (·.isCategory)).getD false
  getLevel p := p.length - 1
  getSiblingIndex p := ((s.entries.get? p).map (·.siblingIndex)).getD 0
  getChildCount p := ((s.entries.get? p).map (·.childCount)).getD 0
  getDescendantDocumentCount p := ((s.entries.get? p).map (·.descendantDocumentCount)).getD 0
  category_of_mem hc := by
    obtain ⟨k, e, rfl, he⟩ := (mem_childPaths_iff hcached htree).mp hc
    obtain ⟨e', he', hcat⟩ := htree.parent he
    rw [he', map_some, getD_some, hcat]
  childCount_eq p := by
    rw [childPaths, length_map, (hcached.perm_getChildEntries htree p).length_eq]
    cases hget : s.entries.get? p with
    | none =>
      rw [htree.childKeys_of_absent hget]
      rfl
    | some e =>
      rw [length_childKeys]
      exact (hcounts p e hget).childCount
  descendantDocumentCount_eq p := by
    have hcount : ∀ q, ((s.entries.get? q).map (·.descendantDocumentCount)).getD 0
        = s.descendantsOf false q := by
      intro q
      cases hget : s.entries.get? q with
      | none => exact (htree.tally_below_absent hget false).2.symm
      | some e => exact (hcounts q e hget).descendantDocumentCount
    simp only [hcount]
    exact sum_descendants hcached htree p

/-! ## Going to a position -/

section Positions

variable {htree : Tree env s} {hcounts : HasCounts s} {hcached : Cached s}

/-- Below a category there is a document. -/
theorem exists_document_below (hfilled : Filled s []) {key : EntryKey}
    {p : EntryPath} {e : VirtualViewEntryData} (hget : s.entries.get? (key :: p) = some e)
    (hcat : e.isCategory = true) : 0 < s.descendantsOf false (key :: p) := by
  obtain ⟨n, hn⟩ : ∃ n, depthBound s ≤ n + (key :: p).length := ⟨_, Nat.le_add_right _ _⟩
  rw [descendantsOf, tally_pos_iff]
  induction n generalizing key p e with
  | zero =>
    obtain ⟨k, child, hchild⟩ := hfilled key p e hget hcat not_mem_nil
    have hle := length_le_depthBound hchild
    simp only [length_cons] at hle hn
    omega
  | succ n ih =>
    obtain ⟨k, child, hchild⟩ := hfilled key p e hget hcat not_mem_nil
    cases hkind : child.isCategory with
    | false => exact ⟨_, child, hchild, isBelow_cons.mpr suffix_rfl, hkind⟩
    | true =>
      obtain ⟨q, d, hq, hbelow, hdoc⟩ := ih hchild hkind (by
        simp only [length_cons] at hn ⊢
        omega)
      refine ⟨q, d, hq, ⟨hbelow.1, (suffix_cons k (key :: p)).trans hbelow.2⟩, hdoc⟩

/-- A navigator without an access check sees every entry below the root. -/
theorem isVisible_of_open (hfilled : Filled s [])
    (nav : Navigator (viewTree htree hcounts hcached)) (hopen : nav.accessCheck = none)
    {k : EntryKey} {p : EntryPath} {e : VirtualViewEntryData}
    (hget : s.entries.get? (k :: p) = some e) : nav.isVisible (k :: p) = true := by
  have hnonempty : nav.isEmptyCategory (k :: p) = false := by
    rw [isEmptyCategory, Bool.and_eq_false_iff]
    change (nav.dontShowEmptyCategories
        && ((s.entries.get? (k :: p)).map (·.isCategory)).getD false) = false
      ∨ decide (((s.entries.get? (k :: p)).map (·.descendantDocumentCount)).getD 0 = 0) = false
    rw [hget]
    cases hcat : e.isCategory with
    | false => exact .inl (by simp [hcat])
    | true =>
      refine .inr (decide_eq_false ?_)
      rw [map_some, getD_some, (hcounts _ e hget).descendantDocumentCount]
      exact (exists_document_below hfilled hget hcat).ne'
  rw [isVisible, isVisibleRaw, hopen, hnonempty]
  rfl

/-- The numbers on the way down through some keys. -/
def indexesDown (s : ViewIndex) : EntryPath → List EntryKey → List ℕ
  | _, [] => []
  | p, k :: down => ((s.entries.get? (k :: p)).map (·.siblingIndex)).getD 0
      :: indexesDown s (k :: p) down

theorem siblingIndexes_append (s : ViewIndex) (p : EntryPath) (down : List EntryKey) :
    s.siblingIndexes (down.reverse ++ p) = s.siblingIndexes p ++ indexesDown s p down := by
  induction down generalizing p with
  | nil => simp [indexesDown]
  | cons k down ih =>
    rw [reverse_cons, append_assoc]
    refine (ih (k :: p)).trans ?_
    rw [siblingIndexes, indexesDown, append_assoc]
    rfl

theorem getElem?_childPaths {p : EntryPath} {i : ℕ} {k : EntryKey} :
    (childPaths env s p)[i]? = some (k :: p)
      ↔ ((s.getChildEntries env p).map (·.toKey env))[i]? = some k := by
  rw [childPaths_eq_map, getElem?_map, map_eq_some_iff]
  exact ⟨fun ⟨_, hk, hcons⟩ => (List.cons.inj hcons).1 ▸ hk, fun h => ⟨k, h, rfl⟩⟩

/-- The number of a child is its place. -/
theorem siblingIndex_of_getElem? (hcached : Cached s) (htree : Tree env s)
    (hnumbered : ∀ p, NumberedAt env s p) {p q : EntryPath} {j : ℕ}
    (h : (childPaths env s p)[j]? = some q) :
    ((s.entries.get? q).map (·.siblingIndex)).getD 0 = j + 1 := by
  obtain ⟨k, e, rfl, he⟩ := (mem_childPaths_iff hcached htree).mp (mem_of_getElem? h)
  obtain ⟨e₀, i, he₀, hi, hplace⟩ := hnumbered p k e he
  obtain rfl := some.inj (he.symm.trans he₀)
  have hj := getElem?_childPaths.mp h
  have hij : i = j := (getElem?_inj (List.getElem?_eq_some_iff.mp hplace).1
    (nodup_getChildEntries hcached htree p)).mp (hplace.trans hj.symm)
  rw [he, map_some, getD_some, hi, hij]

/-- **The child of a number** is the one that the scan of the children stops at. -/
theorem firstFrom_siblingIndex (hcached : Cached s) (htree : Tree env s)
    (hnumbered : ∀ p, NumberedAt env s p) {k : EntryKey} {p : EntryPath}
    {e : VirtualViewEntryData} (hget : s.entries.get? (k :: p) = some e)
    {visible : EntryPath → Bool} (hvisible : visible (k :: p) = true) :
    ∃ j, firstFrom (fun q => ((s.entries.get? q).map (·.siblingIndex)).getD 0
        = ((s.entries.get? (k :: p)).map (·.siblingIndex)).getD 0 && visible q)
          (childPaths env s p) 0 = some j
      ∧ (childPaths env s p)[j]? = some (k :: p) := by
  obtain ⟨e₀, i, -, -, hplace⟩ := hnumbered p k e hget
  have hat := getElem?_childPaths.mpr hplace
  obtain ⟨hlt, hget'⟩ := List.getElem?_eq_some_iff.mp hat
  refine ⟨i, ?_, hat⟩
  rw [firstFrom, drop_zero, siblingIndex_of_getElem? hcached htree hnumbered hat,
    findIdx?_eq_some_iff_getElem.mpr ⟨hlt, ?_, fun j hj => ?_⟩]
  · rfl
  · rw [hget', siblingIndex_of_getElem? hcached htree hnumbered hat, hvisible]
    simp
  · -- an earlier child has an earlier number
    have hearlier := siblingIndex_of_getElem? hcached htree hnumbered
      (getElem?_eq_getElem (hj.trans hlt))
    simp only [hearlier, Bool.and_eq_true, decide_eq_true_eq]
    omega

/-- Going down from an entry by the numbers of those below it. -/
theorem gotoPosFrom_indexesDown (hnumbered : ∀ p, NumberedAt env s p)
    (nav : Navigator (viewTree htree hcounts hcached))
    (hvisible : ∀ k p e, s.entries.get? (k :: p) = some e → nav.isVisible (k :: p) = true)
    {down : List EntryKey} (hdown : down ≠ []) {p : EntryPath} {e : VirtualViewEntryData}
    (hget : s.entries.get? (down.reverse ++ p) = some e) (stack : EntryStack EntryPath) :
    ∃ landed, nav.gotoPosFrom (indexesDown s p down)
        (createTraversalInfo (viewTree htree hcounts hcached) p :: stack) = (true, landed)
      ∧ getCurrentEntryRaw landed = some (down.reverse ++ p) := by
  induction down generalizing p stack with
  | nil => exact absurd rfl hdown
  | cons k down ih =>
    rw [reverse_cons, append_assoc] at hget ⊢
    obtain ⟨e₁, he₁⟩ : ∃ e₁, s.entries.get? (k :: p) = some e₁ :=
      htree.exists_of_suffix hget (suffix_append _ _)
    obtain ⟨j, hfirst, hat⟩ := firstFrom_siblingIndex hcached htree hnumbered he₁
      (hvisible k p e₁ he₁)
    have hfirst' : firstFrom (fun entry => (viewTree htree hcounts hcached).getSiblingIndex entry
          = ((s.entries.get? (k :: p)).map (·.siblingIndex)).getD 0 && nav.isVisible entry)
        (createTraversalInfo (viewTree htree hcounts hcached) p).childEntries 0 = some j := hfirst
    rw [indexesDown, gotoPosFrom]
    simp only [hfirst']
    have hraw : getCurrentEntryRaw
        ({ createTraversalInfo (viewTree htree hcounts hcached) p with
          currentIndex := some j } :: stack) = some (k :: p) := hat
    cases down with
    | nil => exact ⟨_, rfl, hraw⟩
    | cons k' down =>
      rw [indexesDown, hraw]
      exact ih (by simp) hget _

/-- **A position leads to its entry.** -/
theorem gotoPosArray_siblingIndexes (hfilled : Filled s []) (hnumbered : ∀ p, NumberedAt env s p)
    (nav : Navigator (viewTree htree hcounts hcached)) (hroot : nav.topEntry = [])
    (hcategories : nav.withCategories = true) (hdocuments : nav.withDocuments = true)
    (hopen : nav.accessCheck = none) {k : EntryKey} {p : EntryPath} {e : VirtualViewEntryData}
    (hget : s.entries.get? (k :: p) = some e) :
    ∃ landed, nav.gotoPosArray (s.siblingIndexes (k :: p)) = (true, landed)
      ∧ nav.getCurrentEntry landed = some (k :: p) := by
  have hvisible : ∀ k p e, s.entries.get? (k :: p) = some e → nav.isVisible (k :: p) = true :=
    fun _ _ _ hq => isVisible_of_open hfilled nav hopen hq
  have hincludes : nav.includes (k :: p) = true := by
    rw [includes, hcategories, hdocuments, ite_self]
  have hsplit := siblingIndexes_append s [] (k :: p).reverse
  rw [reverse_reverse, append_nil] at hsplit
  have hget' : s.entries.get? ((k :: p).reverse.reverse ++ []) = some e := by
    rw [reverse_reverse, append_nil]
    exact hget
  obtain ⟨landed, hgoto, hraw⟩ := gotoPosFrom_indexesDown hnumbered nav hvisible (by simp) hget' []
  refine ⟨landed, ?_, ?_⟩
  · rw [gotoPosArray, hroot, hsplit]
    exact hgoto
  · rw [reverse_reverse, append_nil] at hraw
    rw [getCurrentEntry, hraw, filter_some, hvisible k p e hget, hincludes]
    rfl

end Positions

end MindooDB
