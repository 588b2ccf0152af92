import MindooDB.View.Tree

/-!
# View/Counts — the counts of an entry

Hanging an entry up and taking one down keep the counts of children, and of documents below, equal
to what is in the tree.  The counts of entries and of categories below are kept by everything but
the removal of an empty category, which forgets the entries above its parent
(`Counts`, `DeepCounts`).
-/

namespace MindooDB

open LinkedMap List SameEntry ViewIndex

namespace ViewIndex

/-- Adding up something of every entry of the tree. -/
abbrev total {M : Type*} [AddCommMonoid M] (s : ViewIndex) (g : EntryPath → VirtualViewEntryData → M) :
    M := s.entries.sumOver g

section Total

variable {M : Type*} [AddCommMonoid M] {env : Runtime} {s : ViewIndex}
  {child : VirtualViewEntryData} {up : VirtualViewEntryData → VirtualViewEntryData}
  {key : EntryKey} {parent : EntryPath} {g : EntryPath → VirtualViewEntryData → M}

/-- What is added up of an entry does not change in the entries above a change. -/
def Unmoved (s : ViewIndex) (parent : EntryPath) (f : VirtualViewEntryData → VirtualViewEntryData)
    (g : EntryPath → VirtualViewEntryData → M) : Prop :=
  ∀ q e, q <:+ parent → s.entries.get? q = some e → ∀ e', SameEntry e e' → g q (f e') = g q e'

theorem total_hang (hfresh : s.entries.get? (child.sortKey.toKey env :: parent) = none)
    (hgain : ∀ q e, g q (gainChild env child e) = g q e) (hup : s.Unmoved parent up g) :
    (s.hang env child up parent).total g
      = s.total g + g (child.sortKey.toKey env :: parent) child := by
  have hnot : child.sortKey.toKey env :: parent
      ∉ (s.entries.modify parent (gainChild env child)).keys := by
    rw [keys_modify, notMem_keys_iff]
    exact hfresh
  rw [total, hang, sumOver_modifyUp, sumOver_set_of_notMem _ _ _ hnot,
    sumOver_modify _ _ fun v _ => hgain parent v]
  intro q v hq hget
  rw [get?_set, get?_modify] at hget
  have hne : q ≠ child.sortKey.toKey env :: parent := by
    rintro rfl
    exact absurd hq.length_le (by simp)
  rw [if_neg hne] at hget
  split at hget
  · obtain ⟨e, he, rfl⟩ := Option.map_eq_some_iff.mp hget
    exact hup q e hq he _ (SameEntry.gainChild env child e)
  · exact hup q v hq hget v (refl v)

theorem total_unhang {entry : VirtualViewEntryData}
    (hget : s.entries.get? (key :: parent) = some entry)
    (hlose : ∀ q e, g q (loseChild env child e) = g q e) (hup : s.Unmoved parent up g) :
    s.total g = (s.unhang env child up key parent).total g + g (key :: parent) entry := by
  rw [total, total, unhang, sumOver_modifyUp,
    sumOver_modify _ _ fun v _ => hlose parent v, ← sumOver_delete _ _ hget]
  intro q v hq hget
  rw [get?_modify, get?_delete] at hget
  have hne : q ≠ key :: parent := by
    rintro rfl
    exact absurd hq.length_le (by simp)
  simp only [if_neg hne] at hget
  split at hget
  · obtain ⟨e, he, rfl⟩ := Option.map_eq_some_iff.mp hget
    exact hup q e hq he _ (SameEntry.loseChild env child e)
  · exact hup q v hq hget v (refl v)

end Total

/-! ## Counting -/

/-- Whether an entry counts: it is of a kind, and its path has a property. -/
def tallyTerm (P : EntryPath → Prop) [DecidablePred P] (isCategory : Bool) (q : EntryPath)
    (e : VirtualViewEntryData) : ℤ :=
  if P q ∧ e.isCategory = isCategory then 1 else 0

/-- The number of entries of a kind whose path has a property. -/
def tally (s : ViewIndex) (P : EntryPath → Prop) [DecidablePred P] (isCategory : Bool) : ℤ :=
  s.total (tallyTerm P isCategory)

/-- The paths of the children of an entry. -/
def IsChild (p q : EntryPath) : Prop := q ≠ [] ∧ q.tail = p

/-- The paths below an entry. -/
def IsBelow (p q : EntryPath) : Prop := q ≠ [] ∧ p <:+ q.tail

instance (p : EntryPath) : DecidablePred (IsChild p) :=
  fun q => inferInstanceAs (Decidable (q ≠ [] ∧ q.tail = p))

instance (p : EntryPath) : DecidablePred (IsBelow p) :=
  fun q => inferInstanceAs (Decidable (q ≠ [] ∧ p <:+ q.tail))

@[simp] theorem isChild_cons {p q : EntryPath} {k : EntryKey} : IsChild p (k :: q) ↔ q = p := by
  simp [IsChild]

@[simp] theorem isBelow_cons {p q : EntryPath} {k : EntryKey} :
    IsBelow p (k :: q) ↔ p <:+ q := by
  simp [IsBelow]

/-- How many children of a kind an entry has. -/
def childrenOf (s : ViewIndex) (isCategory : Bool) (p : EntryPath) : ℤ :=
  s.tally (IsChild p) isCategory

/-- How many entries of a kind lie below an entry. -/
def descendantsOf (s : ViewIndex) (isCategory : Bool) (p : EntryPath) : ℤ :=
  s.tally (IsBelow p) isCategory

section Tally

variable {env : Runtime} {s : ViewIndex} {child entry : VirtualViewEntryData}
  {up : VirtualViewEntryData → VirtualViewEntryData} {key : EntryKey} {parent : EntryPath}
  {P : EntryPath → Prop} [DecidablePred P]

theorem tallyTerm_eq {e e' : VirtualViewEntryData} (h : SameEntry e e') (isCategory : Bool)
    (q : EntryPath) : tallyTerm P isCategory q e' = tallyTerm P isCategory q e := by
  rw [tallyTerm, tallyTerm, h.isCategory]

theorem tally_hang (hfresh : s.entries.get? (child.sortKey.toKey env :: parent) = none)
    (hup : ∀ e, SameEntry e (up e)) (isCategory : Bool) :
    (s.hang env child up parent).tally P isCategory = s.tally P isCategory
      + if P (child.sortKey.toKey env :: parent) ∧ child.isCategory = isCategory then 1 else 0 :=
  total_hang (g := tallyTerm P isCategory) hfresh
    (fun q e => tallyTerm_eq (SameEntry.gainChild env child e) isCategory q)
    fun q _ _ _ e' _ => tallyTerm_eq (hup e') isCategory q

theorem tally_unhang (hget : s.entries.get? (key :: parent) = some entry)
    (hup : ∀ e, SameEntry e (up e)) (isCategory : Bool) :
    (s.unhang env child up key parent).tally P isCategory = s.tally P isCategory
      - if P (key :: parent) ∧ entry.isCategory = isCategory then 1 else 0 :=
  eq_sub_of_add_eq (total_unhang (g := tallyTerm P isCategory) hget
    (fun q e => tallyTerm_eq (SameEntry.loseChild env child e) isCategory q)
    fun q _ _ _ e' _ => tallyTerm_eq (hup e') isCategory q).symm

theorem tally_eq_zero {isCategory : Bool}
    (h : ∀ q e, s.entries.get? q = some e → P q → e.isCategory ≠ isCategory) :
    s.tally P isCategory = 0 := by
  have hzero : s.total (tallyTerm P isCategory) = s.total fun _ _ => (0 : ℤ) :=
    sumOver_congr fun q e hget => if_neg fun hq => h q e hget hq.1 hq.2
  rw [tally, hzero, total, sumOver]
  simp

theorem tally_nonneg (isCategory : Bool) : 0 ≤ s.tally P isCategory := by
  refine sum_nonneg fun n hn => ?_
  obtain ⟨e, -, rfl⟩ := mem_map.mp hn
  rw [tallyTerm]
  split <;> decide

/-- Something counts exactly when there is something to count. -/
theorem tally_pos_iff {isCategory : Bool} : 0 < s.tally P isCategory
    ↔ ∃ q e, s.entries.get? q = some e ∧ P q ∧ e.isCategory = isCategory := by
  constructor
  · intro hpos
    by_contra hnone
    push Not at hnone
    exact absurd (tally_eq_zero fun q e hget hq => hnone q e hget hq) hpos.ne'
  · rintro ⟨q, e, hget, hq, hcat⟩
    have hterm : tallyTerm P isCategory q e = 1 := if_pos ⟨hq, hcat⟩
    have hle : tallyTerm P isCategory q e ≤ s.tally P isCategory := by
      refine single_le_sum ?_ _ (mem_map.mpr ⟨(q, e), mem_toList_iff.mpr hget, rfl⟩)
      intro n hn
      obtain ⟨e, -, rfl⟩ := mem_map.mp hn
      rw [tallyTerm]
      split <;> decide
    rw [hterm] at hle
    exact hle

end Tally

end ViewIndex

/-! ## The counts -/

/-- **The counts of children and of documents below** are those of the tree. -/
structure Counts (s : ViewIndex) (p : EntryPath) (e : VirtualViewEntryData) : Prop where
  childCategoryCount : e.childCategoryCount = s.childrenOf true p
  childDocumentCount : e.childDocumentCount = s.childrenOf false p
  childCount : e.childCount = s.childrenOf true p + s.childrenOf false p
  descendantDocumentCount : e.descendantDocumentCount = s.descendantsOf false p

/-- The counts of entries and of categories below, too. -/
structure DeepCounts (s : ViewIndex) (p : EntryPath) (e : VirtualViewEntryData) : Prop where
  descendantCategoryCount : e.descendantCategoryCount = s.descendantsOf true p
  descendantCount : e.descendantCount = s.descendantsOf true p + s.descendantsOf false p

/-- What the entries above are told of a change by `delta` entries of a kind, as far as the
documents below go. -/
structure TellsDocuments (isCategory : Bool) (delta : ℤ)
    (up : VirtualViewEntryData → VirtualViewEntryData) : Prop where
  same : ∀ e, SameEntry e (up e)
  childCategoryCount : ∀ e, (up e).childCategoryCount = e.childCategoryCount
  childDocumentCount : ∀ e, (up e).childDocumentCount = e.childDocumentCount
  childCount : ∀ e, (up e).childCount = e.childCount
  descendantDocumentCount : ∀ e, (up e).descendantDocumentCount
    = e.descendantDocumentCount + if isCategory then 0 else delta

/-- The same, with the entries and the categories below. -/
structure TellsAll (isCategory : Bool) (delta : ℤ)
    (up : VirtualViewEntryData → VirtualViewEntryData) : Prop where
  descendantCategoryCount : ∀ e, (up e).descendantCategoryCount
    = e.descendantCategoryCount + if isCategory then delta else 0
  descendantCount : ∀ e, (up e).descendantCount = e.descendantCount + delta

section Tells

variable (view : VirtualView)

theorem tellsDocuments_docUp (values : ColumnValues) :
    TellsDocuments false 1 (view.docUp values) := by
  refine ⟨docUp view values, ?_, ?_, ?_, ?_⟩ <;>
  · intro e
    rw [VirtualView.docUp, VirtualView.addDocTotals_eq]
    rfl

theorem tellsAll_docUp (values : ColumnValues) : TellsAll false 1 (view.docUp values) := by
  constructor <;>
  · intro e
    rw [VirtualView.docUp, VirtualView.addDocTotals_eq]
    rfl

theorem tellsDocuments_docDown (values : ColumnValues) :
    TellsDocuments false (-1) (view.docDown values) := by
  refine ⟨docDown view values, ?_, ?_, ?_, ?_⟩ <;>
  · intro e
    rw [VirtualView.docDown, VirtualView.addDocTotals_eq]
    rfl

theorem tellsAll_docDown (values : ColumnValues) : TellsAll false (-1) (view.docDown values) := by
  constructor
  · intro e
    rw [VirtualView.docDown, VirtualView.addDocTotals_eq]
    exact sub_eq_add_neg _ _
  · intro e
    rw [VirtualView.docDown, VirtualView.addDocTotals_eq]
    exact sub_eq_add_neg _ _

theorem tellsDocuments_incrementCategories :
    TellsDocuments true 1 (·.incrementDescendantCount true) :=
  ⟨incrementDescendantCount true, fun _ => rfl, fun _ => rfl, fun _ => rfl, fun _ => rfl⟩

theorem tellsAll_incrementCategories : TellsAll true 1 (·.incrementDescendantCount true) :=
  ⟨fun _ => rfl, fun _ => rfl⟩

/-- The removal of a category tells nothing, which for the documents below is right. -/
theorem tellsDocuments_id (delta : ℤ) : TellsDocuments true delta id :=
  ⟨refl, fun _ => rfl, fun _ => rfl, fun _ => rfl, fun _ => (add_zero _).symm⟩

end Tells

section Hang

variable {env : Runtime} {s : ViewIndex} {child entry : VirtualViewEntryData}
  {up : VirtualViewEntryData → VirtualViewEntryData} {key : EntryKey} {parent : EntryPath}
  {delta : ℤ}

/-- Nothing lies below a path that is not there. -/
theorem Tree.tally_below_absent (h : Tree env s) {p : EntryPath} (habsent : s.entries.get? p = none)
    (isCategory : Bool) :
    s.childrenOf isCategory p = 0 ∧ s.descendantsOf isCategory p = 0 := by
  have hnone : ∀ q e, s.entries.get? q = some e → ¬IsBelow p q := by
    rintro q e hget ⟨hne, hsuffix⟩
    obtain ⟨k, q, rfl⟩ := exists_cons_of_ne_nil hne
    obtain ⟨e', he'⟩ := h.exists_of_suffix hget (hsuffix.trans (suffix_cons k q))
    exact nomatch habsent.symm.trans he'
  constructor
  · refine tally_eq_zero fun q e hget hchild => absurd ?_ (hnone q e hget)
    exact ⟨hchild.1, hchild.2 ▸ suffix_rfl⟩
  · exact tally_eq_zero fun q e hget hbelow => absurd hbelow (hnone q e hget)

/-- An entry as it is made counts nothing. -/
structure Blank (e : VirtualViewEntryData) : Prop where
  childCategoryCount : e.childCategoryCount = 0
  childDocumentCount : e.childDocumentCount = 0
  childCount : e.childCount = 0
  descendantDocumentCount : e.descendantDocumentCount = 0
  descendantCategoryCount : e.descendantCategoryCount = 0
  descendantCount : e.descendantCount = 0

/-- The tree has gained, or lost, one entry below `parent`. -/
structure Shifts (isCategory : Bool) (delta : ℤ) (parent : EntryPath) (s s' : ViewIndex) :
    Prop where
  children : ∀ kind p, s'.childrenOf kind p = s.childrenOf kind p
    + if parent = p ∧ isCategory = kind then delta else 0
  descendants : ∀ kind p, s'.descendantsOf kind p = s.descendantsOf kind p
    + if p <:+ parent ∧ isCategory = kind then delta else 0

theorem shifts_hang (hfresh : s.entries.get? (child.sortKey.toKey env :: parent) = none)
    (hup : ∀ e, SameEntry e (up e)) :
    Shifts child.isCategory 1 parent s (s.hang env child up parent) := by
  constructor
  · intro kind p
    rw [ViewIndex.childrenOf, tally_hang hfresh hup]
    simp [ViewIndex.childrenOf]
  · intro kind p
    rw [descendantsOf, tally_hang hfresh hup]
    simp [descendantsOf]

theorem shifts_unhang (hget : s.entries.get? (key :: parent) = some entry)
    (hup : ∀ e, SameEntry e (up e)) :
    Shifts entry.isCategory (-1) parent s (s.unhang env child up key parent) := by
  constructor
  · intro kind p
    rw [ViewIndex.childrenOf, tally_unhang hget hup]
    simp only [isChild_cons, ViewIndex.childrenOf]
    split <;> ring
  · intro kind p
    rw [descendantsOf, tally_unhang hget hup]
    simp only [isBelow_cons, descendantsOf]
    split <;> ring

/-- How an entry that was there before is changed: `change` is what the parent does. -/
def changed (change up : VirtualViewEntryData → VirtualViewEntryData) (parent p : EntryPath)
    (e : VirtualViewEntryData) : VirtualViewEntryData :=
  (if p <:+ parent then up else id) ((if p = parent then change else id) e)

/-- What the parent itself does is to count the child. -/
structure CountsChild (isCategory : Bool) (delta : ℤ)
    (change : VirtualViewEntryData → VirtualViewEntryData) : Prop where
  childCategoryCount : ∀ e, (change e).childCategoryCount
    = e.childCategoryCount + if isCategory then delta else 0
  childDocumentCount : ∀ e, (change e).childDocumentCount
    = e.childDocumentCount + if isCategory then 0 else delta
  childCount : ∀ e, (change e).childCount = e.childCount + delta
  descendantDocumentCount : ∀ e, (change e).descendantDocumentCount = e.descendantDocumentCount
  descendantCategoryCount : ∀ e, (change e).descendantCategoryCount = e.descendantCategoryCount
  descendantCount : ∀ e, (change e).descendantCount = e.descendantCount

theorem countsChild_gainChild :
    CountsChild child.isCategory 1 (gainChild env child) :=
  ⟨fun _ => rfl, fun _ => rfl, fun _ => rfl, fun _ => rfl, fun _ => rfl, fun _ => rfl⟩

theorem countsChild_loseChild :
    CountsChild child.isCategory (-1) (loseChild env child) :=
  ⟨fun _ => rfl, fun _ => rfl, fun _ => rfl, fun _ => rfl, fun _ => rfl, fun _ => rfl⟩

variable {s' : ViewIndex} {isCategory : Bool}
  {change : VirtualViewEntryData → VirtualViewEntryData} {p : EntryPath} {e : VirtualViewEntryData}

/-- **One entry more or less keeps the counts** of children and documents, once it is told. -/
theorem Counts.changed (h : Counts s p e) (hshift : Shifts isCategory delta parent s s')
    (hchange : CountsChild isCategory delta change) (hup : TellsDocuments isCategory delta up) :
    Counts s' p (changed change up parent p e) := by
  rw [MindooDB.changed]
  by_cases hp : p = parent
  · subst hp
    rw [if_pos rfl, if_pos suffix_rfl]
    constructor
    · rw [hup.childCategoryCount, hchange.childCategoryCount, h.childCategoryCount,
        hshift.children]
      cases isCategory <;> simp
    · rw [hup.childDocumentCount, hchange.childDocumentCount, h.childDocumentCount,
        hshift.children]
      cases isCategory <;> simp
    · rw [hup.childCount, hchange.childCount, h.childCount, hshift.children, hshift.children]
      cases isCategory <;> simp <;> ring
    · rw [hup.descendantDocumentCount, hchange.descendantDocumentCount,
        h.descendantDocumentCount, hshift.descendants]
      cases isCategory <;> simp
  · have hne : parent ≠ p := Ne.symm hp
    rw [if_neg hp, id]
    by_cases hbelow : p <:+ parent
    · rw [if_pos hbelow]
      constructor
      · simp [hup.childCategoryCount, h.childCategoryCount, hshift.children, hne]
      · simp [hup.childDocumentCount, h.childDocumentCount, hshift.children, hne]
      · simp [hup.childCount, h.childCount, hshift.children, hne]
      · rw [hup.descendantDocumentCount, h.descendantDocumentCount, hshift.descendants]
        cases isCategory <;> simp [hbelow]
    · rw [if_neg hbelow, id]
      constructor
      · simp [h.childCategoryCount, hshift.children, hne]
      · simp [h.childDocumentCount, hshift.children, hne]
      · simp [h.childCount, hshift.children, hne]
      · simp [h.descendantDocumentCount, hshift.descendants, hbelow]

/-- **One entry more or less keeps all the counts**, once all is told. -/
theorem DeepCounts.changed (h : DeepCounts s p e) (hshift : Shifts isCategory delta parent s s')
    (hchange : CountsChild isCategory delta change) (hup : TellsAll isCategory delta up) :
    DeepCounts s' p (changed change up parent p e) := by
  have hinner : ∀ {e'}, e'.descendantCategoryCount = e.descendantCategoryCount →
      e'.descendantCount = e.descendantCount →
      DeepCounts s' p ((if p <:+ parent then up else id) e') := by
    intro e' hcategories hall
    by_cases hbelow : p <:+ parent
    · rw [if_pos hbelow]
      constructor
      · rw [hup.descendantCategoryCount, hcategories, h.descendantCategoryCount,
          hshift.descendants]
        cases isCategory <;> simp [hbelow]
      · rw [hup.descendantCount, hall, h.descendantCount, hshift.descendants, hshift.descendants]
        cases isCategory <;> simp [hbelow] <;> ring
    · rw [if_neg hbelow, id]
      constructor
      · simp [hcategories, h.descendantCategoryCount, hshift.descendants, hbelow]
      · simp [hall, h.descendantCount, hshift.descendants, hbelow]
  refine hinner ?_ ?_
  · split
    · exact hchange.descendantCategoryCount e
    · rfl
  · split
    · exact hchange.descendantCount e
    · rfl

/-- What is made counts nothing, and there is nothing below it. -/
theorem counts_of_new (htree : Tree env s)
    (hfresh : s.entries.get? (child.sortKey.toKey env :: parent) = none)
    (hup : ∀ e, SameEntry e (up e)) (hblank : Blank child) :
    Counts (s.hang env child up parent) (child.sortKey.toKey env :: parent) child
      ∧ DeepCounts (s.hang env child up parent) (child.sortKey.toKey env :: parent) child := by
  have hshift : Shifts child.isCategory 1 parent s (s.hang env child up parent) :=
    shifts_hang hfresh hup
  have hbelow : ¬child.sortKey.toKey env :: parent <:+ parent := fun h =>
    absurd h.length_le (by simp)
  have hchildren : ∀ kind, (s.hang env child up parent).childrenOf kind
      (child.sortKey.toKey env :: parent) = 0 := fun kind => by
    simp [hshift.children, (htree.tally_below_absent hfresh kind).1]
  have hdescendants : ∀ kind, (s.hang env child up parent).descendantsOf kind
      (child.sortKey.toKey env :: parent) = 0 := fun kind => by
    simp [hshift.descendants, (htree.tally_below_absent hfresh kind).2, hbelow]
  refine ⟨⟨?_, ?_, ?_, ?_⟩, ?_, ?_⟩ <;>
  simp [hchildren, hdescendants, hblank.childCategoryCount, hblank.childDocumentCount,
    hblank.childCount, hblank.descendantDocumentCount, hblank.descendantCategoryCount,
    hblank.descendantCount]

end Hang

end MindooDB
