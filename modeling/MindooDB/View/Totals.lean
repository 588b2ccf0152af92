import MindooDB.View.Documents
import MindooDB.View.TotalValues

/-!
# View/Totals — when the totals are right

Every total of a category is the sum of its column over the documents below (`HasTotals`), and is
shown as soon as it changes.  But `removeDocFromTotalsOfParents` runs before the count of documents
is lowered, so an average from which a document was taken stays one document behind until another is
added below.  The totals are right all along a run exactly when no batch leaves an average behind
(`totalsRight_run_iff`).
-/

namespace MindooDB

open List Option ViewIndex

namespace VirtualView

variable (view : VirtualView)

/-! ## Sums over documents -/

/-- The number an entry brings to a column: categories bring none. -/
def numberOf (column : VirtualViewColumn) (e : VirtualViewEntryData) : Option ℚ :=
  if e.isCategory then none else view.numberIn column e.columnValues

/-- What an entry adds to the sum over the entries whose path has a property. -/
def numberTerm (P : EntryPath → Prop) [DecidablePred P] (column : VirtualViewColumn)
    (q : EntryPath) (e : VirtualViewEntryData) : ℚ :=
  if P q then (view.numberOf column e).getD 0 else 0

/-- **The sum of a column over the documents** whose path has a property. -/
def sumWhere (P : EntryPath → Prop) [DecidablePred P] (column : VirtualViewColumn)
    (s : ViewIndex) : ℚ := s.total (view.numberTerm P column)

/-- The sum of a column over the documents below an entry. -/
abbrev sumBelow (p : EntryPath) (column : VirtualViewColumn) (s : ViewIndex) : ℚ :=
  view.sumWhere (IsBelow p) column s

/-- A document below an entry has a number in a column. -/
def HasNumbers (s : ViewIndex) (p : EntryPath) (column : VirtualViewColumn) : Prop :=
  ∃ q e, s.entries.get? q = some e ∧ IsBelow p q ∧ (view.numberOf column e).isSome

/-- **Every category with numbers below shows their sums and averages.** -/
structure TotalsRight (s : ViewIndex) : Prop where
  sum : ∀ p e, s.entries.get? p = some e → e.isCategory = true → ∀ column ∈ view.totalColumns,
    column.totalMode = .SUM → view.HasNumbers s p column →
    e.columnValues.get? column.name = some (.number (view.sumBelow p column s))
  average : ∀ p e, s.entries.get? p = some e → e.isCategory = true →
    ∀ column ∈ view.totalColumns, column.totalMode = .AVERAGE → view.HasNumbers s p column →
    e.columnValues.get? column.name
      = some (.number (view.sumBelow p column s / e.descendantDocumentCount))

/-! ## When they are -/

/-- A batch takes out a document below an entry. -/
def Loses (s : ViewIndex) (change : VirtualViewDataChange) (p : EntryPath) : Prop :=
  ∃ q ∈ takenPaths (occurrencesToRemove change s), IsBelow p q ∧ s.entries.has q = true

/-- A batch hangs a document up below an entry. -/
def Gains (s : ViewIndex) (change : VirtualViewDataChange) (p : EntryPath) : Prop :=
  ∃ doc ∈ view.acceptedDocs change, ∃ place ∈ view.docPlaces doc, p <:+ place ∧
    ((view.docSortKey doc).toKey view.env :: place ∈ takenPaths (occurrencesToRemove change s)
      ∨ s.entries.has ((view.docSortKey doc).toKey view.env :: place) = false)

/-- The sum of a column over the documents below an entry that a batch does not take out. -/
def keptSum (s : ViewIndex) (change : VirtualViewDataChange) (p : EntryPath)
    (column : VirtualViewColumn) : ℚ :=
  view.sumWhere (fun q => IsBelow p q ∧ q ∉ takenPaths (occurrencesToRemove change s)) column s

/-- **No batch leaves an average behind**: an entry that loses a document gains one, or what is left
below it sums up to zero. -/
def AveragesKept (s : ViewIndex) (change : VirtualViewDataChange) : Prop :=
  ∀ p, Loses s change p → view.Gains s change p ∨ ∀ column ∈ view.totalColumns,
    column.totalMode = .AVERAGE → view.keptSum s change p column = 0

/-- **A batch takes out its own documents**: what is found at a place brought the numbers that are
listed for it. -/
def TakesItsOwn (occurrences : List Occurrence) (s : ViewIndex) : Prop :=
  ∀ o ∈ occurrences, o.isCategory = false → o.origin ≠ ORIGIN_VIRTUALVIEW →
    ∀ e, s.entries.get? o.path = some e → ∀ column ∈ view.totalColumns,
      view.numberIn column o.columnValues = view.numberOf column e

variable {view} {s s' : ViewIndex} {child entry : VirtualViewEntryData}
  {up : VirtualViewEntryData → VirtualViewEntryData} {key : EntryKey} {parent p : EntryPath}
  {column : VirtualViewColumn} {P : EntryPath → Prop} [DecidablePred P]

/-! ## Hanging up and taking down -/

variable {e e' : VirtualViewEntryData} {env : Runtime} {lag : EntryPath → Prop}

theorem numberOf_of_same (h : SameEntry e e')
    (hvalues : e'.columnValues = e.columnValues) (column : VirtualViewColumn) :
    view.numberOf column e' = view.numberOf column e := by
  rw [numberOf, numberOf, h.isCategory, hvalues]

theorem numberOf_of_category {e : VirtualViewEntryData} (h : e.isCategory = true)
    (column : VirtualViewColumn) : view.numberOf column e = none := if_pos h

/-- The entries above a change bring no numbers. -/
theorem unmoved_numberTerm (htree : Tree env s) (hparent : s.HasCategory parent)
    (hup : ∀ e, SameEntry e (up e)) (column : VirtualViewColumn) :
    s.Unmoved parent up (view.numberTerm P column) := by
  intro q e hq hget e' hsame
  obtain ⟨e₀, he₀, hcat⟩ := htree.hasCategory_above hparent hq
  obtain rfl := some.inj (hget.symm.trans he₀)
  have hcat' := hsame.isCategory.trans hcat
  rw [numberTerm, numberTerm, numberOf_of_category hcat',
    numberOf_of_category ((hup e').isCategory.trans hcat')]

theorem sumWhere_hang (htree : Tree view.env s) (hparent : s.HasCategory parent)
    (hfresh : s.entries.get? (child.sortKey.toKey view.env :: parent) = none)
    (hup : ∀ e, SameEntry e (up e)) (column : VirtualViewColumn) :
    view.sumWhere P column (s.hang view.env child up parent) = view.sumWhere P column s
      + view.numberTerm P column (child.sortKey.toKey view.env :: parent) child :=
  total_hang (g := view.numberTerm P column) hfresh (fun _ _ => rfl)
    (unmoved_numberTerm htree hparent hup column)

theorem sumWhere_unhang (htree : Tree view.env s)
    (hget : s.entries.get? (key :: parent) = some entry) (hup : ∀ e, SameEntry e (up e))
    (column : VirtualViewColumn) :
    view.sumWhere P column (s.unhang view.env entry up key parent)
      = view.sumWhere P column s - view.numberTerm P column (key :: parent) entry :=
  eq_sub_of_add_eq (total_unhang (g := view.numberTerm P column) hget (fun _ _ => rfl)
    (unmoved_numberTerm htree (htree.parent hget) hup column)).symm

theorem sumWhere_eq_zero (h : ∀ q e, s.entries.get? q = some e → P q →
    view.numberOf column e = none) : view.sumWhere P column s = 0 := by
  have hzero : s.total (view.numberTerm P column) = s.total fun _ _ => (0 : ℚ) := by
    refine LinkedMap.sumOver_congr fun q e hget => ?_
    rw [numberTerm]
    split
    · rename_i hP
      rw [h q e hget hP]
      rfl
    · rfl
  rw [sumWhere, hzero]
  exact LinkedMap.sumOver_zero _

/-- An entry after one is hung up: the new one, or one that was told. -/
theorem told_of_hang (h : (s.hang env child up parent).entries.get? p = some e') :
    (p = child.sortKey.toKey env :: parent ∧ e' = child) ∨
      ∃ e mid, s.entries.get? p = some e ∧ SameTotals e mid ∧ SameEntry e mid
        ∧ e' = if p <:+ parent then up mid else mid := by
  rw [get?_hang] at h
  split at h
  · rename_i hp
    exact .inl ⟨hp, (some.inj h).symm⟩
  · obtain ⟨e, he, rfl⟩ := map_eq_some_iff.mp h
    refine .inr ⟨e, (if p = parent then gainChild env child else id) e, he, ?_, ?_, ?_⟩
    · split
      · exact SameTotals.gainChild env child e
      · exact SameTotals.refl e
    · split
      · exact SameEntry.gainChild env child e
      · exact SameEntry.refl e
    · split <;> rfl

theorem told_of_unhang (h : (s.unhang env child up key parent).entries.get? p = some e') :
    ∃ e mid, s.entries.get? p = some e ∧ SameTotals e mid ∧ SameEntry e mid
      ∧ e' = if p <:+ parent then up mid else mid := by
  rw [get?_unhang] at h
  split at h
  · exact nomatch h
  · obtain ⟨e, he, rfl⟩ := map_eq_some_iff.mp h
    refine ⟨e, (if p = parent then loseChild env child else id) e, he, ?_, ?_, ?_⟩
    · split
      · exact SameTotals.loseChild env child e
      · exact SameTotals.refl e
    · split
      · exact SameEntry.loseChild env child e
      · exact SameEntry.refl e
    · split <;> rfl

/-- What is told to the entries above a change does not reach what has a number. -/
theorem numberOf_told (htree : Tree env s) (hparent : s.HasCategory parent)
    (hup : ∀ e, SameEntry e (up e)) {q : EntryPath} {mid : VirtualViewEntryData}
    (hget : s.entries.get? q = some e) (htotals : SameTotals e mid) (hsame : SameEntry e mid)
    (column : VirtualViewColumn) :
    view.numberOf column (if q <:+ parent then up mid else mid) = view.numberOf column e := by
  split
  · rename_i hq
    obtain ⟨e₀, he₀, hcat⟩ := htree.hasCategory_above hparent hq
    obtain rfl := some.inj (hget.symm.trans he₀)
    rw [numberOf_of_category hcat,
      numberOf_of_category (((hup mid).isCategory.trans hsame.isCategory).trans hcat)]
  · exact numberOf_of_same hsame htotals.columnValues column

theorem hasNumbers_of_hang (htree : Tree view.env s) (hparent : s.HasCategory parent)
    (hup : ∀ e, SameEntry e (up e))
    (h : view.HasNumbers (s.hang view.env child up parent) p column) :
    view.HasNumbers s p column ∨ p <:+ parent ∧ (view.numberOf column child).isSome := by
  obtain ⟨q, e', hget, hbelow, hnumber⟩ := h
  rcases told_of_hang hget with ⟨rfl, rfl⟩ | ⟨e, mid, he, htotals, hsame, rfl⟩
  · exact .inr ⟨isBelow_cons.mp hbelow, hnumber⟩
  · rw [numberOf_told htree hparent hup he htotals hsame] at hnumber
    exact .inl ⟨q, e, he, hbelow, hnumber⟩

theorem hasNumbers_of_unhang (htree : Tree view.env s) (hparent : s.HasCategory parent)
    (hup : ∀ e, SameEntry e (up e))
    (h : view.HasNumbers (s.unhang view.env child up key parent) p column) :
    view.HasNumbers s p column := by
  obtain ⟨q, e', hget, hbelow, hnumber⟩ := h
  obtain ⟨e, mid, he, htotals, hsame, rfl⟩ := told_of_unhang hget
  rw [numberOf_told htree hparent hup he htotals hsame] at hnumber
  exact ⟨q, e, he, hbelow, hnumber⟩

/-! ## The totals -/

variable (view) in
/-- The total of a column at an entry is the sum over the documents below. -/
structure HasTotal (s : ViewIndex) (p : EntryPath) (column : VirtualViewColumn)
    (e : VirtualViewEntryData) : Prop where
  eq : (e.getTotalValue view.env column.name).getD 0 = view.sumBelow p column s
  isSome : view.HasNumbers s p column → (e.getTotalValue view.env column.name).isSome

variable (view) in
/-- **Every total is the sum over the documents below.** -/
def HasTotals (s : ViewIndex) : Prop :=
  ∀ p e, s.entries.get? p = some e → ∀ column ∈ view.totalColumns, view.HasTotal s p column e

variable (view) in
/-- What the entries above are told of a number that comes (`sign` is 1) or goes. -/
def TellsNumber (sign : ℚ) (number : Option ℚ) (column : VirtualViewColumn)
    (up : VirtualViewEntryData → VirtualViewEntryData) : Prop :=
  ∀ e, (up e).getTotalValue view.env column.name = match number with
    | none => e.getTotalValue view.env column.name
    | some n => some ((e.getTotalValue view.env column.name).getD 0 + sign * n)

theorem TellsNumber.getD {sign : ℚ} {number : Option ℚ} (h : view.TellsNumber sign number column up)
    (e : VirtualViewEntryData) : ((up e).getTotalValue view.env column.name).getD 0
      = (e.getTotalValue view.env column.name).getD 0 + sign * number.getD 0 := by
  rw [h e]
  cases number with
  | none => simp
  | some n => simp

theorem TellsNumber.isSome {sign : ℚ} {number : Option ℚ}
    (h : view.TellsNumber sign number column up)
    (hsome : (e.getTotalValue view.env column.name).isSome ∨ number.isSome) :
    ((up e).getTotalValue view.env column.name).isSome := by
  rw [h e]
  cases number with
  | none => simpa using hsome
  | some n => rfl

/-- Nothing lies below what has just been made. -/
theorem not_isBelow_new (htree : Tree view.env s)
    (hfresh : s.entries.get? (child.sortKey.toKey view.env :: parent) = none) {q : EntryPath}
    {e : VirtualViewEntryData} (hget : (s.hang view.env child up parent).entries.get? q = some e) :
    ¬IsBelow (child.sortKey.toKey view.env :: parent) q := by
  rintro ⟨hne, hsuffix⟩
  obtain ⟨k, q, rfl⟩ := exists_cons_of_ne_nil hne
  rcases told_of_hang hget with ⟨hnew, -⟩ | ⟨e, -, he, -⟩
  · obtain ⟨-, rfl⟩ := List.cons.inj hnew
    exact absurd hsuffix.length_le (by simp)
  · obtain ⟨e₀, he₀⟩ := htree.exists_of_suffix he (hsuffix.trans (suffix_cons k q))
    exact nomatch hfresh.symm.trans he₀

/-- **Hanging an entry up keeps the totals**, once its number is told. -/
theorem HasTotals.hang (h : view.HasTotals s) (htree : Tree view.env s)
    (hparent : s.HasCategory parent)
    (hfresh : s.entries.get? (child.sortKey.toKey view.env :: parent) = none)
    (hup : ∀ e, SameEntry e (up e)) (hblank : child.totalValues = ∅)
    (htells : ∀ column ∈ view.totalColumns,
      view.TellsNumber 1 (view.numberOf column child) column up) :
    view.HasTotals (s.hang view.env child up parent) := by
  intro q e' hget column hcolumn
  rcases told_of_hang hget with ⟨rfl, rfl⟩ | ⟨e, mid, he, htotals, hsame, rfl⟩
  · have hnone : e'.getTotalValue view.env column.name = none := by
      rw [VirtualViewEntryData.getTotalValue, hblank]
      rfl
    refine ⟨?_, ?_⟩
    · rw [hnone, sumBelow, sumWhere_eq_zero fun q e hq hbelow =>
        absurd hbelow (not_isBelow_new htree hfresh hq)]
      rfl
    · rintro ⟨q, e, hq, hbelow, -⟩
      exact absurd hbelow (not_isBelow_new htree hfresh hq)
  · obtain ⟨heq, hsome⟩ := h q e he column hcolumn
    have hsum := sumWhere_hang (P := IsBelow q) htree hparent hfresh hup column
    rw [numberTerm] at hsum
    simp only [isBelow_cons] at hsum
    rw [← htotals.getTotalValue] at heq hsome
    split
    · rename_i hq
      have htold := htells column hcolumn
      rw [if_pos hq] at hsum
      refine ⟨?_, fun hnumbers => htold.isSome ?_⟩
      · rw [htold.getD, heq, sumBelow, sumBelow, hsum, one_mul]
      · exact (hasNumbers_of_hang htree hparent hup hnumbers).imp hsome And.right
    · rename_i hq
      rw [if_neg hq, add_zero] at hsum
      refine ⟨heq.trans hsum.symm, fun hnumbers => hsome ?_⟩
      exact (hasNumbers_of_hang htree hparent hup hnumbers).resolve_right fun h => hq h.1

/-- **Taking an entry down keeps the totals**, once its number is told. -/
theorem HasTotals.unhang (h : view.HasTotals s) (htree : Tree view.env s)
    (hentry : s.entries.get? (key :: parent) = some entry) (hup : ∀ e, SameEntry e (up e))
    (htells : ∀ column ∈ view.totalColumns,
      view.TellsNumber (-1) (view.numberOf column entry) column up) :
    view.HasTotals (s.unhang view.env entry up key parent) := by
  intro q e' hget column hcolumn
  obtain ⟨e, mid, he, htotals, hsame, rfl⟩ := told_of_unhang hget
  obtain ⟨heq, hsome⟩ := h q e he column hcolumn
  have hsum := sumWhere_unhang (P := IsBelow q) htree hentry hup column
  rw [numberTerm] at hsum
  simp only [isBelow_cons] at hsum
  rw [← htotals.getTotalValue] at heq hsome
  have hnumbers : view.HasNumbers (s.unhang view.env entry up key parent) q column →
      view.HasNumbers s q column := hasNumbers_of_unhang htree (htree.parent hentry) hup
  split
  · rename_i hq
    have htold := htells column hcolumn
    rw [if_pos hq] at hsum
    refine ⟨?_, fun h => htold.isSome (.inl (hsome (hnumbers h)))⟩
    rw [htold.getD, heq, sumBelow, sumBelow, hsum]
    ring
  · rename_i hq
    rw [if_neg hq, sub_zero] at hsum
    exact ⟨heq.trans hsum.symm, fun h => hsome (hnumbers h)⟩

/-! ## What is shown -/

variable (view) in
/-- **Every entry shows its totals**, an average being one document behind where there is a lag. -/
def Shown (lag : EntryPath → Prop) (s : ViewIndex) : Prop :=
  ∀ p e, s.entries.get? p = some e → ∀ column ∈ view.totalColumns,
    (lag p → view.ShowsBy (e.descendantDocumentCount + 1) column e)
      ∧ (¬lag p → view.ShowsBy e.descendantDocumentCount column e)

theorem Shown.congr {lag' : EntryPath → Prop} (h : view.Shown lag s)
    (hlag : ∀ p, lag p ↔ lag' p) : view.Shown lag' s := by
  rwa [show lag' = lag from funext fun p => propext (hlag p).symm]

/-- What has no totals shows them. -/
theorem showsBy_of_blank (hblank : e.totalValues = ∅) (count : ℤ) :
    view.ShowsBy count column e := by
  intro t ht
  rw [VirtualViewEntryData.getTotalValue, hblank] at ht
  cases ht

section

variable (h : view.Shown lag s)

include h

theorem Shown.told {mid : VirtualViewEntryData} (hget : s.entries.get? p = some e)
    (htotals : SameTotals e mid) (hcolumn : column ∈ view.totalColumns) :
    (lag p → view.ShowsBy (mid.descendantDocumentCount + 1) column mid)
      ∧ (¬lag p → view.ShowsBy mid.descendantDocumentCount column mid) := by
  obtain ⟨hbehind, hright⟩ := h p e hget column hcolumn
  rw [htotals.descendantDocumentCount]
  exact ⟨fun hlag => htotals.showsBy (hbehind hlag), fun hlag => htotals.showsBy (hright hlag)⟩

/-- A category that is hung up changes nothing that is shown. -/
theorem Shown.hang_category (hblank : child.totalValues = ∅) (hup : ∀ e, SameTotals e (up e)) :
    view.Shown lag (s.hang env child up parent) := by
  intro q e' hget column hcolumn
  rcases told_of_hang hget with ⟨-, rfl⟩ | ⟨e, mid, he, htotals, -, rfl⟩
  · exact ⟨fun _ => showsBy_of_blank hblank _, fun _ => showsBy_of_blank hblank _⟩
  · split
    · exact h.told he (htotals.trans (hup mid)) hcolumn
    · exact h.told he htotals hcolumn

/-- A category that is taken down changes nothing that is shown. -/
theorem Shown.unhang_category (hup : ∀ e, SameTotals e (up e)) :
    view.Shown lag (s.unhang env child up key parent) := by
  intro q e' hget column hcolumn
  obtain ⟨e, mid, he, htotals, -, rfl⟩ := told_of_unhang hget
  split
  · exact h.told he (htotals.trans (hup mid)) hcolumn
  · exact h.told he htotals hcolumn

/-- **A document that is hung up** brings what is above it up to date. -/
theorem Shown.hang_document (hapart : view.NamesApart) (hcounts : HasCounts s)
    (hblank : child.totalValues = ∅) (values : ColumnValues) :
    view.Shown (fun q => lag q ∧ ¬q <:+ parent)
      (s.hang env child (view.docUp values) parent) := by
  intro q e' hget column hcolumn
  rcases told_of_hang hget with ⟨-, rfl⟩ | ⟨e, mid, he, htotals, -, rfl⟩
  · exact ⟨fun _ => showsBy_of_blank hblank _, fun _ => showsBy_of_blank hblank _⟩
  · split
    · rename_i hq
      refine ⟨fun hlag => absurd hq hlag.2, fun _ => ?_⟩
      have hnonneg : 0 ≤ mid.descendantDocumentCount := by
        rw [htotals.descendantDocumentCount, (hcounts q e he).descendantDocumentCount]
        exact s.tally_nonneg _
      have hcount := (tellsDocuments_docUp view values).descendantDocumentCount mid
      rw [if_neg Bool.false_ne_true] at hcount
      rw [hcount]
      exact showsBy_docUp hapart hcolumn values hnonneg
    · rename_i hq
      obtain ⟨hbehind, hright⟩ := h.told he htotals hcolumn
      exact ⟨fun hlag => hbehind hlag.1, fun hlag => hright fun h => hlag ⟨h, hq⟩⟩

/-- **A document that is taken down** leaves what is above it one document behind. -/
theorem Shown.unhang_document (hapart : view.NamesApart) (hcounts : HasCounts s)
    (hentry : s.entries.get? (key :: parent) = some entry) (hdoc : entry.isCategory = false)
    (values : ColumnValues) : view.Shown (fun q => lag q ∨ q <:+ parent)
      (s.unhang view.env entry (view.docDown values) key parent) := by
  intro q e' hget column hcolumn
  obtain ⟨e, mid, he, htotals, -, rfl⟩ := told_of_unhang hget
  split
  · rename_i hq
    refine ⟨fun _ => ?_, fun hlag => absurd (.inr hq) hlag⟩
    have hpos : 0 < s.descendantsOf false q :=
      tally_pos_iff.mpr ⟨key :: parent, entry, hentry, isBelow_cons.mpr hq, hdoc⟩
    have hcount := (tellsDocuments_docDown view values).descendantDocumentCount mid
    rw [if_neg Bool.false_ne_true] at hcount
    rw [hcount, neg_add_cancel_right]
    refine showsBy_addDocTotals hapart hcolumn values (-1) ?_
    rw [htotals.descendantDocumentCount, (hcounts q e he).descendantDocumentCount]
    exact hpos.ne'
  · rename_i hq
    obtain ⟨hbehind, hright⟩ := h.told he htotals hcolumn
    exact ⟨fun hlag => hbehind (hlag.resolve_right hq), fun hlag => hright fun h => hlag (.inl h)⟩

end

variable (view) in
/-- **The totals of a view**: right, and shown but for a lag. -/
structure Totalled (lag : EntryPath → Prop) (s : ViewIndex) : Prop where
  hasTotals : view.HasTotals s
  shown : view.Shown lag s

/-- The totals are about the tree alone. -/
theorem Totalled.of_entries_eq (h : view.Totalled lag s)
    (heq : s'.entries = s.entries) : view.Totalled lag s' := by
  have hsum : ∀ p column, view.sumBelow p column s' = view.sumBelow p column s := by
    intro p column
    rw [sumBelow, sumWhere, total, heq]
    rfl
  refine ⟨fun p e hget column hcolumn => ?_, fun p e hget => h.shown p e (heq ▸ hget)⟩
  obtain ⟨htotal, hisSome⟩ := h.hasTotals p e (heq ▸ hget) column hcolumn
  refine ⟨htotal.trans (hsum p column).symm, fun hnumbers => hisSome ?_⟩
  rw [HasNumbers, heq] at hnumbers
  exact hnumbers

/-! ## The phases of a batch -/

/-- A document below an entry is there no more. -/
def Lost (s s' : ViewIndex) (p : EntryPath) : Prop :=
  ∃ q e, s.entries.get? q = some e ∧ e.isCategory = false ∧ IsBelow p q
    ∧ s'.entries.get? q = none

theorem document_some_of_unhang (htree : Tree env s)
    (hparent : s.HasCategory parent) (hup : ∀ e, SameEntry e (up e))
    (hget : (s.unhang env child up key parent).entries.get? p = some e)
    (hdoc : e.isCategory = false) : p ≠ key :: parent ∧ s.entries.get? p = some e := by
  obtain ⟨hne, e₀, he₀, hsame⟩ := some_of_unhang hup hget
  have hkept : (s.unhang env child up key parent).entries.get? p = some e₀ :=
    htree.get?_unhang_document hparent hne he₀ (hsame.isCategory.symm.trans hdoc)
  obtain rfl := some.inj (hget.symm.trans hkept)
  exact ⟨hne, he₀⟩

theorem document_some_of_hang {env : Runtime} (htree : Tree env s)
    (hparent : s.HasCategory parent) (hup : ∀ e, SameEntry e (up e))
    (hfresh : s.entries.get? (child.sortKey.toKey env :: parent) = none)
    {e : VirtualViewEntryData} (hget : (s.hang env child up parent).entries.get? p = some e)
    (hdoc : e.isCategory = false) :
    (p = child.sortKey.toKey env :: parent ∧ e = child) ∨ s.entries.get? p = some e := by
  rcases some_of_hang hup hget with hnew | ⟨-, e₀, he₀, hsame⟩
  · exact .inl hnew
  · have hkept : (s.hang env child up parent).entries.get? p = some e₀ :=
      htree.get?_hang_document hparent hfresh he₀ (hsame.isCategory.symm.trans hdoc)
    obtain rfl := some.inj (hget.symm.trans hkept)
    exact .inr he₀

/-- What is lost when a document goes. -/
theorem lost_unhang_iff {s₀ : ViewIndex} {env : Runtime}
    (hentry : s.entries.get? (key :: parent) = some entry) (hdoc : entry.isCategory = false)
    (hbefore : ∀ q e, s.entries.get? q = some e → e.isCategory = false →
      s₀.entries.get? q = some e) (p : EntryPath) :
    Lost s₀ (s.unhang env child up key parent) p ↔ Lost s₀ s p ∨ p <:+ parent := by
  constructor
  · rintro ⟨q, e, he, hd, hbelow, hnone⟩
    by_cases hq : q = key :: parent
    · exact .inr (isBelow_cons.mp (hq ▸ hbelow))
    · refine .inl ⟨q, e, he, hd, hbelow, ?_⟩
      rw [get?_unhang, if_neg hq] at hnone
      exact map_eq_none_iff.mp hnone
  · rintro (⟨q, e, he, hd, hbelow, hnone⟩ | hp)
    · refine ⟨q, e, he, hd, hbelow, ?_⟩
      rw [get?_unhang, hnone]
      split <;> rfl
    · exact ⟨key :: parent, entry, hbefore _ _ hentry hdoc, hdoc, isBelow_cons.mpr hp,
        unhang_gone⟩

/-- **The removals** leave the entries behind that lost a document. -/
theorem Totalled.unhangsMany (hapart : view.NamesApart) {occurrences : List Occurrence}
    (hlisted : Listed occurrences)
    (hmany : Relation.ReflTransGen (view.Unhangs occurrences) s s') (htree : Tree view.env s)
    (hcounts : HasCounts s) (hown : view.TakesItsOwn occurrences s)
    (h : view.Totalled (fun _ => False) s) : view.Totalled (Lost s s') s' := by
  have hall : view.Totalled (Lost s s') s' ∧ ∀ q e, s'.entries.get? q = some e →
      e.isCategory = false → s.entries.get? q = some e := by
    induction hmany with
    | refl =>
      refine ⟨⟨h.hasTotals, h.shown.congr fun p => ⟨False.elim, ?_⟩⟩, fun q e hget _ => hget⟩
      rintro ⟨q, e, he, -, -, hnone⟩
      exact nomatch hnone.symm.trans he
    | tail hmany hstep ih =>
      obtain ⟨htotalled, hbefore⟩ := ih
      obtain ⟨htree', hcounts', -⟩ := unhangsMany_counts hlisted hmany htree
      obtain ⟨ho, hodoc, horigin, hpath, hentry⟩ := hstep
      rename_i o key parent entry
      obtain ⟨key', parent', hpath', hkey⟩ := hlisted _ ho hodoc
      obtain ⟨rfl, rfl⟩ := List.cons.inj (hpath.symm.trans hpath')
      have hdoc : entry.isCategory = false := (htree'.isCategory_eq hentry).trans hkey
      have hsame := SameEntry.docDown view o.columnValues
      have hnumber := hown _ ho hodoc horigin entry (hpath ▸ hbefore _ _ hentry hdoc)
      refine ⟨⟨?_, ?_⟩, fun q e hget hd => ?_⟩
      · refine htotalled.hasTotals.unhang htree' hentry hsame fun column hcolumn => ?_
        rw [← hnumber column hcolumn]
        exact getTotalValue_addDocTotals hapart hcolumn _ (-1)
      · exact (htotalled.shown.unhang_document hapart (hcounts' hcounts) hentry hdoc _).congr
          fun p => (lost_unhang_iff hentry hdoc hbefore p).symm
      · exact hbefore q e (document_some_of_unhang htree' (htree'.parent hentry) hsame hget hd).2 hd
  exact hall.1

/-- What is gained when an entry is hung up. -/
theorem lost_hang_iff {s₀ : ViewIndex} {env : Runtime} (htree : Tree env s)
    (hparent : s.HasCategory parent) (hup : ∀ e, SameEntry e (up e))
    (hfresh : s.entries.get? (child.sortKey.toKey env :: parent) = none)
    (hbefore : ∀ q, s.entries.get? q = none → s₀.entries.get? q = none) (p : EntryPath) :
    Lost (s.hang env child up parent) s₀ p
      ↔ Lost s s₀ p ∨ child.isCategory = false ∧ p <:+ parent := by
  constructor
  · rintro ⟨q, e, he, hd, hbelow, hnone⟩
    rcases document_some_of_hang htree hparent hup hfresh he hd with ⟨rfl, rfl⟩ | he
    · exact .inr ⟨hd, isBelow_cons.mp hbelow⟩
    · exact .inl ⟨q, e, he, hd, hbelow, hnone⟩
  · rintro (⟨q, e, he, hd, hbelow, hnone⟩ | ⟨hd, hp⟩)
    · exact ⟨q, e, htree.get?_hang_document hparent hfresh he hd, hd, hbelow, hnone⟩
    · exact ⟨_, child, hang_new, hd, isBelow_cons.mpr hp, hbefore _ hfresh⟩

variable {s₀ : ViewIndex}

/-- **Placing a document** brings up to date what it is hung up below. -/
theorem Totalled.hangs (hapart : view.NamesApart) {doc : DocEntry} {steps : List Placement}
    (hstep : view.Hangs doc steps s s') (htree : Tree view.env s) (hcounts : HasCounts s)
    (hbefore : ∀ q, s.entries.get? q = none → s₀.entries.get? q = none)
    (h : view.Totalled (fun p => lag p ∧ ¬Lost s s₀ p) s) :
    view.Totalled (fun p => lag p ∧ ¬Lost s' s₀ p) s' := by
  cases hstep with
  | @document parent _ hparent hfresh =>
    have hsame := SameEntry.docUp view (VirtualViewEntryData.definedValues doc.columnValues)
    refine ⟨h.hasTotals.hang htree hparent hfresh hsame rfl fun column hcolumn => ?_,
      (h.shown.hang_document hapart hcounts rfl _).congr fun p => ?_⟩
    · exact fun e => getTotalValue_addDocTotals hapart hcolumn _ 1 (e.incrementDescendantCount false)
    · rw [lost_hang_iff htree hparent hsame hfresh hbefore]
      change _ ↔ lag p ∧ ¬(Lost s s₀ p ∨ false = false ∧ p <:+ parent)
      tauto
  | @category itemName value descending indentLevel parent _ hparent hfresh lists counter =>
    have hfresh' : s.entries.get? ((view.categoryEntryData itemName value descending indentLevel
      counter).sortKey.toKey view.env :: parent) = none := hfresh
    have htotals : view.HasTotals (s.hang view.env
        (view.categoryEntryData itemName value descending indentLevel counter)
        (·.incrementDescendantCount true) parent) :=
      h.hasTotals.hang htree hparent hfresh' (SameEntry.incrementDescendantCount true) rfl
        fun column _ e => rfl
    have hshown : view.Shown (fun p => lag p ∧ ¬Lost s s₀ p) (s.hang view.env
        (view.categoryEntryData itemName value descending indentLevel counter)
        (·.incrementDescendantCount true) parent) :=
      h.shown.hang_category rfl SameTotals.incrementCategories
    refine Totalled.of_entries_eq ⟨htotals, Shown.congr hshown fun p =>
      and_congr_right fun _ => not_congr ?_⟩ rfl
    refine ((lost_hang_iff htree hparent (SameEntry.incrementDescendantCount true) hfresh' hbefore
      p).trans (or_iff_left ?_)).symm
    exact fun hdoc => Bool.false_ne_true hdoc.1.symm

theorem Totalled.hangsMany (hapart : view.NamesApart) {doc : DocEntry} {steps : List Placement}
    (hmany : view.HangsMany doc steps s s') (htree : Tree view.env s) (hcounts : HasCounts s)
    (hbefore : ∀ q, s.entries.get? q = none → s₀.entries.get? q = none)
    (h : view.Totalled (fun p => lag p ∧ ¬Lost s s₀ p) s) :
    view.Totalled (fun p => lag p ∧ ¬Lost s' s₀ p) s' := by
  induction hmany with
  | refl => exact h
  | tail hmany hstep ih =>
    refine ih.hangs hapart hstep (HangsMany.tree hmany htree)
      ((HangsMany.counts hmany htree).1 hcounts) fun q hnone => hbefore q ?_
    refine eq_none_iff_forall_ne_some.mpr fun e he => ?_
    obtain ⟨e', he', -⟩ := HangsMany.of_some hmany he
    exact nomatch hnone.symm.trans he'

/-- **The additions** bring up to date what they hang documents up below. -/
theorem Totalled.foldl_addOne (hapart : view.NamesApart) (docs : List DocEntry)
    (htree : Tree view.env s) (hcounts : HasCounts s)
    (hbefore : ∀ q, s.entries.get? q = none → s₀.entries.get? q = none)
    (h : view.Totalled (fun p => lag p ∧ ¬Lost s s₀ p) s) :
    view.Totalled (fun p => lag p ∧ ¬Lost (docs.foldl view.addOne s) s₀ p)
      (docs.foldl view.addOne s) := by
  induction docs generalizing s with
  | nil => exact h
  | cons doc docs ih =>
    obtain ⟨hmany, -⟩ := foldl_script_spec doc htree htree.root
      (List.Subset.refl (view.docScript doc))
    have hadded := added_addOne htree doc
    have hplaced : view.Totalled (fun p => lag p ∧ ¬Lost (view.addOne s doc) s₀ p)
        (view.addOne s doc) :=
      (h.hangsMany hapart hmany htree hcounts hbefore).of_entries_eq rfl
    refine ih hadded.tree (hadded.counts hcounts) (fun q hnone => hbefore q ?_) hplaced
    refine eq_none_iff_forall_ne_some.mpr fun e he => ?_
    obtain ⟨e', he', -⟩ := hadded.of_some he
    exact nomatch hnone.symm.trans he'

/-- **The cleanup** leaves all totals as they are. -/
theorem Totalled.dropsMany (hmany : Relation.ReflTransGen view.Drops s s')
    (htree : Tree view.env s) (hcounts : HasCounts s)
    (h : view.Totalled lag s) : view.Totalled lag s' := by
  induction hmany with
  | refl => exact h
  | tail hmany hdrop ih =>
    obtain ⟨htree', -⟩ := dropsMany_spec hmany htree hcounts
    obtain ⟨hentry, hcat, -⟩ := hdrop
    refine Totalled.of_entries_eq ⟨?_, ih.shown.unhang_category SameTotals.refl⟩ rfl
    refine ih.hasTotals.unhang htree' hentry SameEntry.refl fun column _ e => ?_
    rw [numberOf_of_category hcat]

/-- **The numbering** leaves all totals as they are. -/
theorem Totalled.renumbersMany (hmany : Relation.ReflTransGen Renumbers s s')
    (h : view.Totalled lag s) : view.Totalled lag s' := by
  have hsome : ∀ {p e'}, s'.entries.get? p = some e' → ∃ e, s.entries.get? p = some e
      ∧ Renumbered e e' := fun hget => (renumbersMany_some hmany).1 hget
  have hnumber : ∀ {e e'} column, Renumbered e e' →
      view.numberOf column e' = view.numberOf column e := fun column hrenumbered =>
    numberOf_of_same hrenumbered.same (SameTotals.of_renumbered hrenumbered).columnValues column
  refine ⟨fun p e' hget column hcolumn => ?_, fun p e' hget column hcolumn => ?_⟩
  · obtain ⟨e, he, hrenumbered⟩ := hsome hget
    obtain ⟨heq, hisSome⟩ := h.hasTotals p e he column hcolumn
    have hsum : view.sumBelow p column s' = view.sumBelow p column s := by
      refine LinkedMap.sumOver_eq_of_counts (fun q e' hq _ => ?_) fun q e hq _ => ?_
      · obtain ⟨e, he, hr⟩ := hsome hq
        exact ⟨e, he, by rw [numberTerm, numberTerm, hnumber column hr]⟩
      · obtain ⟨e', he', hr⟩ := (renumbersMany_some hmany).2 hq
        exact ⟨e', he', by rw [numberTerm, numberTerm, hnumber column hr]⟩
    have htotals := SameTotals.of_renumbered hrenumbered
    refine ⟨by rw [htotals.getTotalValue, heq, hsum], fun hnumbers => ?_⟩
    rw [htotals.getTotalValue]
    obtain ⟨q, e', hq, hbelow, hn⟩ := hnumbers
    obtain ⟨e, he, hr⟩ := hsome hq
    exact hisSome ⟨q, e, he, hbelow, hnumber column hr ▸ hn⟩
  · obtain ⟨e, he, hrenumbered⟩ := hsome hget
    exact h.shown.told he (SameTotals.of_renumbered hrenumbered) hcolumn

/-! ## A batch -/

variable {change : VirtualViewDataChange}

theorem lost_removals_iff (h : Settled view.env s) (p : EntryPath) :
    Lost s (view.applyRemovals change s).1 p ↔ Loses s change p := by
  constructor
  · rintro ⟨q, e, he, hdoc, hbelow, hnone⟩
    refine ⟨q, ?_, hbelow, LinkedMap.has_iff.mpr ⟨e, he⟩⟩
    by_contra hkept
    exact nomatch hnone.symm.trans (document_of_some_removals h he hdoc hkept)
  · rintro ⟨q, htaken, hbelow, hhas⟩
    obtain ⟨e, he⟩ := LinkedMap.has_iff.mp hhas
    obtain ⟨o, ho, hodoc, -, hpath⟩ := mem_takenPaths.mp htaken
    obtain ⟨key, parent, hpath', hkey⟩ := h.lists.listed change o ho hodoc
    obtain rfl := hpath.symm.trans hpath'
    have hdoc : e.isCategory = false := (h.tree.isCategory_eq he).trans hkey
    refine ⟨_, e, he, hdoc, hbelow, eq_none_iff_forall_ne_some.mpr fun e' he' => ?_⟩
    have hdoc' := ((removedBy_applyRemovals change h).tree.isCategory_eq he').trans hkey
    exact (document_some_of_removals h he' hdoc').1 htaken

theorem lost_additions_iff (h : Settled view.env s) (p : EntryPath) :
    Lost (view.applyAdditions change (view.applyRemovals change s).1)
      (view.applyRemovals change s).1 p ↔ view.Gains s change p := by
  have hremoved := removedBy_applyRemovals change h
  constructor
  · rintro ⟨q, e, he, hdoc, hbelow, hnone⟩
    rw [applyAdditions_eq] at he
    rcases document_some_of_foldl_addOne _ hremoved.tree he hdoc with he | ⟨doc, hmem, place,
      hplace, rfl, rfl⟩
    · exact nomatch hnone.symm.trans he
    · refine ⟨doc, hmem, place, hplace, isBelow_cons.mp hbelow, ?_⟩
      by_contra hthere
      rw [not_or, LinkedMap.has_eq_false_iff] at hthere
      obtain ⟨e₀, he₀⟩ := ne_none_iff_exists'.mp hthere.2
      have hkept := document_of_some_removals h he₀ (h.tree.isCategory_eq he₀) hthere.1
      exact nomatch hnone.symm.trans hkept
  · rintro ⟨doc, hmem, place, hplace, hsuffix, hfresh⟩
    obtain ⟨e, he⟩ := (added_applyAdditions change h).placed doc hmem place hplace
    refine ⟨_, e, he, (added_applyAdditions change h).tree.isCategory_eq he,
      isBelow_cons.mpr hsuffix, eq_none_iff_forall_ne_some.mpr fun e' he' => ?_⟩
    obtain ⟨hkept, he₀⟩ := document_some_of_removals h he' (hremoved.tree.isCategory_eq he')
    rcases hfresh with htaken | hnone
    · exact hkept htaken
    · rw [LinkedMap.has_eq_false_iff] at hnone
      exact nomatch hnone.symm.trans he₀

/-- **After a batch** the totals are right, and the averages behind where it took a document out and
added none. -/
theorem totalled_applyChanges (hapart : view.NamesApart) (hs : Settled view.env s)
    (hown : view.TakesItsOwn (occurrencesToRemove change s) s)
    (h : view.Totalled (fun _ => False) s) :
    view.Totalled (fun p => Loses s change p ∧ ¬view.Gains s change p)
      (view.applyChanges s change) := by
  have hremoved := removedBy_applyRemovals change hs
  have htaken := removed_takenOut change hs
  have hadded := added_applyAdditions change hs
  have hafter : view.Totalled (Lost s (view.applyRemovals change s).1)
      (view.applyRemovals change s).1 := by
    have hlost : Lost s (view.takenOut change s).1 = Lost s (view.applyRemovals change s).1 := by
      funext p
      simp only [Lost, hremoved.entries]
    rw [← hlost]
    exact (h.unhangsMany hapart (hs.lists.listed change) htaken.steps hs.tree hs.counts
      hown).of_entries_eq hremoved.entries
  have hstart : view.Totalled (fun p => Lost s (view.applyRemovals change s).1 p
      ∧ ¬Lost (view.applyRemovals change s).1 (view.applyRemovals change s).1 p)
      (view.applyRemovals change s).1 := by
    refine ⟨hafter.hasTotals, hafter.shown.congr fun p => ?_⟩
    refine (and_iff_left ?_).symm
    rintro ⟨q, e, he, -, -, hnone⟩
    exact nomatch hnone.symm.trans he
  have hadditions := hstart.foldl_addOne hapart (view.acceptedDocs change) hremoved.tree
    hremoved.counts fun _ hnone => hnone
  rw [← applyAdditions_eq] at hadditions
  have hbefore := hadditions.dropsMany (dropped_beforeFlush change hs).steps hadded.tree
    (hadded.counts hremoved.counts)
  have hall := hbefore.renumbersMany (renumbers_processPendingSiblingIndexUpdates view _)
  refine ⟨hall.hasTotals, hall.shown.congr fun p => ?_⟩
  rw [lost_removals_iff hs, lost_additions_iff hs]

/-- Below an entry that gains no document are those that were kept. -/
theorem sumBelow_applyChanges (hs : Settled view.env s) (hgains : ¬view.Gains s change p)
    (column : VirtualViewColumn) : view.sumBelow p column (view.applyChanges s change)
      = view.keptSum s change p column := by
  have hdocument : ∀ {e : VirtualViewEntryData}, (view.numberOf column e).getD 0 ≠ 0 →
      e.isCategory = false := fun {e} hne => by
    by_contra hcat
    rw [Bool.not_eq_false] at hcat
    exact hne (by rw [numberOf_of_category hcat]; rfl)
  have hnumber : ∀ {e e'}, Renumbered e e' → view.numberOf column e' = view.numberOf column e :=
    fun hr => numberOf_of_same hr.same (SameTotals.of_renumbered hr).columnValues column
  refine LinkedMap.sumOver_eq_of_counts (fun q e' hget hne => ?_) fun q e hget hne => ?_
  · rw [numberTerm, ite_ne_right_iff] at hne
    obtain ⟨hbelow, hne⟩ := hne
    have hkept : q ∉ takenPaths (occurrencesToRemove change s)
        ∧ ∃ e, s.entries.get? q = some e ∧ Renumbered e e' := by
      rcases kept_or_placed hs hget (hdocument hne) with hkept | ⟨doc, hmem, place, hplace, rfl, -⟩
      · exact hkept
      · -- its place was not free
        obtain ⟨hkept, hthere⟩ := not_or.mp fun hfree =>
          hgains ⟨doc, hmem, place, hplace, isBelow_cons.mp hbelow, hfree⟩
        rw [LinkedMap.has_eq_false_iff] at hthere
        obtain ⟨e, he⟩ := ne_none_iff_exists'.mp hthere
        obtain ⟨e'', he'', hr⟩ := renumbered_of_kept hs he (hs.tree.isCategory_eq he) hkept
        obtain rfl := some.inj (hget.symm.trans he'')
        exact ⟨hkept, e, he, hr⟩
    obtain ⟨hkept, e, he, hr⟩ := hkept
    exact ⟨e, he, by rw [numberTerm, numberTerm, if_pos hbelow, if_pos ⟨hbelow, hkept⟩, hnumber hr]⟩
  · rw [numberTerm, ite_ne_right_iff] at hne
    obtain ⟨⟨hbelow, hkept⟩, hne⟩ := hne
    obtain ⟨e', he', hr⟩ := renumbered_of_kept hs hget (hdocument hne) hkept
    exact ⟨e', he', by rw [numberTerm, numberTerm, if_pos hbelow, if_pos ⟨hbelow, hkept⟩,
      hnumber hr]⟩

/-- Without a lag the totals are right. -/
theorem Totalled.totalsRight (h : view.Totalled (fun _ => False) s) : view.TotalsRight s := by
  have hshown : ∀ p e, s.entries.get? p = some e → ∀ column ∈ view.totalColumns,
      view.HasNumbers s p column → e.columnValues.get? column.name
        = some (.number (if column.totalMode = .AVERAGE then
            view.sumBelow p column s / e.descendantDocumentCount
          else view.sumBelow p column s)) := by
    intro p e hget column hcolumn hnumbers
    obtain ⟨heq, hisSome⟩ := h.hasTotals p e hget column hcolumn
    obtain ⟨t, ht⟩ := isSome_iff_exists.mp (hisSome hnumbers)
    rw [ht, getD_some] at heq
    rw [← heq]
    exact (h.shown p e hget column hcolumn).2 id t ht
  refine ⟨fun p e hget _ column hcolumn hmode hnumbers => ?_,
    fun p e hget _ column hcolumn hmode hnumbers => ?_⟩
  · rw [hshown p e hget column hcolumn hnumbers, if_neg (by simp [hmode])]
  · rw [hshown p e hget column hcolumn hnumbers, if_pos hmode]

/-- Where the averages are kept nothing lags behind. -/
theorem Totalled.of_averagesKept (hs : Settled view.env s) (hkept : view.AveragesKept s change)
    (h : view.Totalled (fun p => Loses s change p ∧ ¬view.Gains s change p)
      (view.applyChanges s change)) :
    view.Totalled (fun _ => False) (view.applyChanges s change) := by
  refine ⟨h.hasTotals, fun p e hget column hcolumn => ⟨False.elim, fun _ => ?_⟩⟩
  obtain ⟨hbehind, hright⟩ := h.shown p e hget column hcolumn
  by_cases hlag : Loses s change p ∧ ¬view.Gains s change p
  · by_cases hmode : column.totalMode = .AVERAGE
    · refine (hbehind hlag).of_zero (fun t ht => ?_) _
      have htotal := (h.hasTotals p e hget column hcolumn).eq
      rw [ht, getD_some, sumBelow_applyChanges hs hlag.2] at htotal
      rw [htotal]
      exact (hkept p hlag.1).resolve_left hlag.2 column hcolumn hmode
    · intro t ht
      have hshown := hbehind hlag t ht
      rw [if_neg hmode] at hshown ⊢
      exact hshown
  · exact hright hlag

/-- **After one batch the totals are right** exactly when it leaves no average behind. -/
theorem totalsRight_applyChanges_iff (hapart : view.NamesApart) (hs : Settled view.env s)
    (hown : view.TakesItsOwn (occurrencesToRemove change s) s)
    (h : view.Totalled (fun _ => False) s) :
    view.TotalsRight (view.applyChanges s change) ↔ view.AveragesKept s change := by
  have hafter := totalled_applyChanges hapart hs hown h
  have hs' := settled_applyChanges change hs
  refine ⟨fun hright p hloses => ?_, fun hkept => (hafter.of_averagesKept hs hkept).totalsRight⟩
  by_contra hbehind
  rw [not_or] at hbehind
  obtain ⟨hgains, hnonzero⟩ := hbehind
  push Not at hnonzero
  obtain ⟨column, hcolumn, hmode, hsum⟩ := hnonzero
  rw [← sumBelow_applyChanges hs hgains] at hsum
  -- a number below is not zero, so there is an entry and it shows an average
  have hnumbers : view.HasNumbers (view.applyChanges s change) p column := by
    by_contra hnone
    refine hsum (sumWhere_eq_zero fun q e hq hbelow => ?_)
    rw [← not_isSome_iff_eq_none]
    exact fun hnumber => hnone ⟨q, e, hq, hbelow, hnumber⟩
  obtain ⟨q, e', hq, hbelow, hnumber⟩ := hnumbers
  obtain ⟨k, q, rfl⟩ := exists_cons_of_ne_nil hbelow.1
  obtain ⟨e, he, hcat⟩ := hs'.tree.hasCategory_of_suffix hq hbelow.2
  have hdoc : e'.isCategory = false := by
    by_contra hcat'
    rw [Bool.not_eq_false] at hcat'
    rw [numberOf_of_category hcat'] at hnumber
    exact nomatch hnumber
  have hpos : 0 < e.descendantDocumentCount := by
    rw [(hs'.counts p e he).descendantDocumentCount]
    exact tally_pos_iff.mpr ⟨_, e', hq, hbelow, hdoc⟩
  obtain ⟨heq, hisSome⟩ := hafter.hasTotals p e he column hcolumn
  obtain ⟨t, ht⟩ := isSome_iff_exists.mp (hisSome ⟨_, e', hq, hbelow, hnumber⟩)
  rw [ht, getD_some] at heq
  have hshown := (hafter.shown p e he column hcolumn).1 ⟨hloses, hgains⟩ t ht
  rw [hright.average p e he hcat column hcolumn hmode ⟨_, e', hq, hbelow, hnumber⟩,
    if_pos hmode, heq] at hshown
  obtain hquotients := ColumnValue.number.inj (some.inj hshown)
  have hcount : (0 : ℚ) < e.descendantDocumentCount := by exact_mod_cast hpos
  push_cast at hquotients
  rw [div_eq_div_iff hcount.ne' (by positivity)] at hquotients
  have hone := mul_left_cancel₀ hsum hquotients
  linarith

theorem totalled_initial : view.Totalled (fun _ => False) view.initial := by
  have hblank : ∀ p e, view.initial.entries.get? p = some e → p = [] ∧ e.totalValues = ∅ := by
    intro p e hget
    rw [get?_initial] at hget
    split at hget
    · rename_i hp
      obtain rfl := some.inj hget
      exact ⟨hp, rfl⟩
    · exact nomatch hget
  refine ⟨fun p e hget column _ => ⟨?_, ?_⟩, fun p e hget column _ =>
    ⟨fun _ => showsBy_of_blank (hblank p e hget).2 _,
      fun _ => showsBy_of_blank (hblank p e hget).2 _⟩⟩
  · rw [VirtualViewEntryData.getTotalValue, (hblank p e hget).2, sumBelow,
      sumWhere_eq_zero fun q e hq hbelow => absurd (hblank q e hq).1 hbelow.1]
    rfl
  · rintro ⟨q, e, hq, hbelow, -⟩
    exact absurd (hblank q e hq).1 hbelow.1

/-- What is listed at a place of another origin than the view's own is the document that is there. -/
theorem takesItsOwn_of_origin (hs : Settled view.env s) (hl : view.Lists s)
    (horigin : ∀ o ∈ occurrencesToRemove change s, ∀ e, s.entries.get? o.path = some e →
      e.isCategory = false → e.origin ≠ ORIGIN_VIRTUALVIEW) :
    view.TakesItsOwn (occurrencesToRemove change s) s := by
  intro o ho hodoc _ e hget column _
  obtain ⟨docId, -, hmem⟩ := mem_flatMap.mp ho
  obtain ⟨occurrences, hlist⟩ : ∃ occurrences,
      s.entriesByDocId.get? (scopedDocIdKey change.origin docId) = some occurrences := by
    cases hlist : s.entriesByDocId.get? (scopedDocIdKey change.origin docId) with
    | none => exact absurd hmem (by simp [hlist])
    | some occurrences => exact ⟨occurrences, rfl⟩
  rw [hlist, getD_some] at hmem
  obtain ⟨⟨key, parent, hpath, hkey, hscoped⟩, -⟩ := hs.lists _ _ hlist o hmem hodoc
  rw [hpath] at hget
  have hdoc := (hs.tree.isCategory_eq hget).trans hkey
  obtain ⟨doc, place, hplace, hplaced, hr, hlist'⟩ :=
    hl.find _ e hget hdoc (horigin o ho e (hpath ▸ hget) hdoc)
  -- both are listed under the key at the end of the path
  obtain ⟨rfl, -⟩ := List.cons.inj hplaced
  have hscoped' : scopedDocIdKey doc.origin doc.docId = scopedDocIdKey change.origin docId :=
    hscoped
  rw [hscoped'] at hlist'
  obtain rfl := some.inj (hlist.symm.trans hlist')
  obtain ⟨place', -, rfl⟩ := List.mem_map.mp hmem
  rw [numberOf_of_same hr.same (SameTotals.of_renumbered hr).columnValues]
  rfl

end VirtualView

open VirtualView

/-- **The totals are right after every batch of a run** exactly when no batch leaves an average
behind, provided the total columns can be told apart and every batch takes out its own documents. -/
theorem totalsRight_run_iff (view : VirtualView) (changes : List VirtualViewDataChange)
    (hapart : view.NamesApart)
    (hown : ∀ before change, before ++ [change] <+: changes →
      view.TakesItsOwn (occurrencesToRemove change (view.run before)) (view.run before)) :
    (∀ before, before <+: changes → view.TotalsRight (view.run before))
      ↔ ∀ before change, before ++ [change] <+: changes →
          view.AveragesKept (view.run before) change := by
  suffices h : ((∀ before, before <+: changes → view.TotalsRight (view.run before))
        ↔ ∀ before change, before ++ [change] <+: changes →
          view.AveragesKept (view.run before) change)
      ∧ ((∀ before change, before ++ [change] <+: changes →
          view.AveragesKept (view.run before) change) →
        view.Totalled (fun _ => False) (view.run changes)) from h.1
  induction changes using List.reverseRecOn with
  | nil =>
    refine ⟨⟨fun _ before change h => absurd h (by simp), fun _ before h => ?_⟩, fun _ => ?_⟩
    · rw [prefix_nil.mp h]
      exact totalled_initial.totalsRight
    · exact totalled_initial
  | append_singleton changes change ih =>
    obtain ⟨hiff, htotalled⟩ := ih fun before next h =>
      hown before next (h.trans (prefix_append _ _))
    have hsettled : Settled view.env (view.run changes) := settled_run changes
    have hlast := hown changes change prefix_rfl
    rw [forall_prefix_concat, hiff, forall_step_concat, run_concat]
    refine ⟨and_congr_right fun hbefore => ?_, fun ⟨hbefore, hkept⟩ => ?_⟩
    · exact totalsRight_applyChanges_iff hapart hsettled hlast (htotalled hbefore)
    · exact Totalled.of_averagesKept hsettled hkept
        (totalled_applyChanges hapart hsettled hlast (htotalled hbefore))

/-! ## A small view with an average -/

def amountColumn : VirtualViewColumn := ⟨"amount", false, .NONE, .AVERAGE, by decide⟩

/-- A view by kind, with the average amount. -/
def byAmount : VirtualView where
  columns := [kindColumn, amountColumn]
  categorizationStyle := .CATEGORY_THEN_DOCUMENT
  isAccepted _ _ _ := true
  env := plainRuntime

/-- A batch of one document of kind `a`. -/
def addAmount (docId : JSString) (amount : ℚ) : VirtualViewDataChange where
  origin := "o"
  additions := (∅ : LinkedMap JSString EntryData).set docId
    ⟨((∅ : ColumnValues).set "kind" (.string "a")).set "amount" (.number amount), none⟩

def amountPath (docId : JSString) : EntryPath :=
  ⟨false, [.endArray], scopedDocIdKey "o" docId⟩ :: kindPath

/-- A document is replaced by one of another amount. -/
def replaceAmount : List VirtualViewDataChange := [addAmount "d" 4, addAmount "d" 6]

theorem namesApart_byAmount : byAmount.NamesApart := by
  have hcolumns : byAmount.totalColumns = [amountColumn] := rfl
  constructor <;>
  · intro c hc c' hc' _
    rw [hcolumns, mem_singleton] at hc hc'
    rw [hc, hc']

/-- Replacing a document keeps the totals right. -/
theorem totalsRight_replaceAmount :
    byAmount.TotalsRight (byAmount.run [addAmount "d" 4])
      ∧ byAmount.TotalsRight (byAmount.run replaceAmount) := by
  have hnone : occurrencesToRemove (addAmount "d" 4) byAmount.initial = [] := rfl
  have htaken : takenPaths (occurrencesToRemove (addAmount "d" 6) (byAmount.run [addAmount "d" 4]))
      = [amountPath "d"] := by decide
  have hsteps : ∀ {P : List VirtualViewDataChange → VirtualViewDataChange → Prop},
      P [] (addAmount "d" 4) → P [addAmount "d" 4] (addAmount "d" 6) →
      ∀ before next, before ++ [next] <+: replaceAmount → P before next := by
    intro P hfirst hsecond
    refine (forall_step_concat (l := [addAmount "d" 4])).mpr
      ⟨(forall_step_concat (l := [])).mpr ⟨fun before next h => ?_, hfirst⟩, hsecond⟩
    exact absurd h (by simp)
  have hright := (totalsRight_run_iff byAmount replaceAmount namesApart_byAmount (hsteps ?_ ?_)).mpr
    (hsteps ?_ ?_)
  · exact ⟨hright _ (prefix_append [addAmount "d" 4] [addAmount "d" 6]),
      hright _ prefix_rfl⟩
  · exact fun o ho => absurd (hnone ▸ ho) not_mem_nil
  · refine takesItsOwn_of_origin (settled_run _) (lists_run _) fun o ho e hget _ => ?_
    have hall : (occurrencesToRemove (addAmount "d" 6) (byAmount.run [addAmount "d" 4])).all
        (fun o => ((byAmount.run [addAmount "d" 4]).entries.get? o.path).all
          fun e => e.origin ≠ ORIGIN_VIRTUALVIEW) = true := by decide
    have hentry := List.all_eq_true.mp hall o ho
    rw [hget] at hentry
    simpa using hentry
  · rintro p ⟨q, hq, -⟩
    change q ∈ takenPaths (occurrencesToRemove (addAmount "d" 4) byAmount.initial) at hq
    exact absurd (hnone ▸ hq) not_mem_nil
  · rintro p ⟨q, hq, hbelow, -⟩
    obtain rfl := mem_singleton.mp (htaken ▸ hq)
    refine Or.inl ⟨_, mem_singleton_self _, kindPath, by decide, isBelow_cons.mp hbelow,
      Or.inl ?_⟩
    exact htaken ▸ mem_singleton_self _

/-- Of two documents, one goes. -/
def removeAmount : List VirtualViewDataChange :=
  [addAmount "d" 4, addAmount "e" 6, { origin := "o", removals := LinkedSet.ofList ["d"] }]

/-- The average of what is left, 6, is shown as 3. -/
theorem not_totalsRight_removeAmount : ¬byAmount.TotalsRight (byAmount.run removeAmount) := by
  intro h
  have hshown : ((byAmount.run removeAmount).entries.get? kindPath).any (fun e =>
      e.isCategory && e.descendantDocumentCount == 1
        && VirtualViewEntryData.getAsNumber byAmount.env e.columnValues "amount" == some 3)
      = true := by decide +kernel
  have hstays : ((byAmount.run removeAmount).entries.get? (amountPath "e")).any (fun e =>
      (byAmount.numberOf amountColumn e).isSome) = true := by decide +kernel
  have hsum : byAmount.sumBelow kindPath amountColumn (byAmount.run removeAmount) = 6 := by
    decide +kernel
  obtain ⟨e, he, hboth⟩ := (Option.any_eq_true _ _).mp hshown
  obtain ⟨e', he', hnumber⟩ := (Option.any_eq_true _ _).mp hstays
  simp only [Bool.and_eq_true, beq_iff_eq] at hboth
  obtain ⟨⟨hcat, hcount⟩, hthree⟩ := hboth
  have haverage := h.average kindPath e he hcat amountColumn mem_cons_self rfl
    ⟨_, e', he', isBelow_cons.mpr suffix_rfl, hnumber⟩
  rw [hsum, hcount] at haverage
  rw [show (amountColumn.name : JSString) = "amount" from rfl] at haverage
  rw [VirtualViewEntryData.getAsNumber, haverage] at hthree
  norm_num at hthree

end MindooDB
