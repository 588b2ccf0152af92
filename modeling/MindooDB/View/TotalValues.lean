import MindooDB.View.Steps

/-!
# View/TotalValues — what a document does to the totals of an entry

A document that is hung up or taken down adds its numbers to the totals of the entries above it, or
takes them off, and these show their totals anew.  Where the total columns can be told apart
(`NamesApart`), every total changes by the number of its own column (`getTotalValue_addDocTotals`)
and every column shows its own total (`showsBy_addDocTotals`).  An average is divided by
the count after a document is added, but by the count before one is removed.
-/

namespace MindooDB

open List VirtualViewEntryData

namespace VirtualView

variable {view : VirtualView} {column : VirtualViewColumn} {values : ColumnValues}
  {e : VirtualViewEntryData}

variable (view) in
/-- **The total columns can be told apart**, by their names and by what is left of these in the keys
of the totals. -/
structure NamesApart : Prop where
  name : ∀ c ∈ view.totalColumns, ∀ c' ∈ view.totalColumns,
    view.env.toLowerCase c.name = view.env.toLowerCase c'.name → c.name = c'.name
  totalMode : ∀ c ∈ view.totalColumns, ∀ c' ∈ view.totalColumns,
    c.name = c'.name → c.totalMode = c'.totalMode

variable (view) in
/-- The number a document brings to a column. -/
def numberIn (column : VirtualViewColumn) (values : ColumnValues) : Option ℚ :=
  getAsNumber view.env values column.name

/-! ## The numbers of a document -/

/-- What adding the numbers up one by one leaves under a name. -/
theorem get?_foldl_docTotals
    {add : LinkedMap JSString ℚ → VirtualViewColumn → LinkedMap JSString ℚ}
    (hadd : ∀ totals c, add totals c = (view.numberIn c values).elim totals (totals.set c.name))
    (columns : List VirtualViewColumn) (totals : LinkedMap JSString ℚ) (name : JSString) :
    (columns.foldl add totals).get? name
      = if (∃ c ∈ columns, c.name = name) ∧ (getAsNumber view.env values name).isSome then
          getAsNumber view.env values name
        else totals.get? name := by
  induction columns generalizing totals with
  | nil => simp
  | cons c columns ih =>
    rw [foldl_cons, ih, hadd]
    by_cases hlater : (∃ c ∈ columns, c.name = name) ∧ (getAsNumber view.env values name).isSome
    · have hall : (∃ c' ∈ c :: columns, c'.name = name)
          ∧ (getAsNumber view.env values name).isSome :=
        ⟨hlater.1.imp fun c' h => ⟨mem_cons_of_mem _ h.1, h.2⟩, hlater.2⟩
      rw [if_pos hlater, if_pos hall]
    · rw [if_neg hlater]
      by_cases hname : c.name = name
      · subst hname
        rw [numberIn]
        cases hnumber : getAsNumber view.env values c.name <;> simp
      · have hset : ((view.numberIn c values).elim totals (totals.set c.name)).get? name
            = totals.get? name := by
          cases view.numberIn c values with
          | none => rfl
          | some docVal => exact LinkedMap.get?_set_of_ne _ _ (Ne.symm hname)
        have hnone : ¬((∃ c' ∈ c :: columns, c'.name = name)
            ∧ (getAsNumber view.env values name).isSome) := by
          rintro ⟨⟨c', hc', hc'name⟩, hsome⟩
          rcases mem_cons.mp hc' with rfl | hc'
          · exact hname hc'name
          · exact hlater ⟨⟨c', hc', hc'name⟩, hsome⟩
        rw [hset, if_neg hnone]

theorem get?_docTotalValues_eq (name : JSString) : (view.docTotalValues values).get? name
    = if (∃ c ∈ view.totalColumns, c.name = name) ∧ (getAsNumber view.env values name).isSome then
        getAsNumber view.env values name
      else none := by
  refine get?_foldl_docTotals (fun totals c => ?_) view.totalColumns ∅ name
  rw [numberIn]
  cases getAsNumber view.env values c.name <;> rfl

/-- **The numbers of a document** are those of the total columns. -/
theorem get?_docTotalValues (hcolumn : column ∈ view.totalColumns) :
    (view.docTotalValues values).get? column.name = view.numberIn column values := by
  rw [get?_docTotalValues_eq, numberIn]
  cases getAsNumber view.env values column.name with
  | none => simp
  | some n => simpa using ⟨column, hcolumn, rfl⟩

/-- A number of a document belongs to a total column. -/
theorem exists_of_mem_docTotalValues {name : JSString} {n : ℚ}
    (h : (name, n) ∈ (view.docTotalValues values).toList) :
    ∃ c ∈ view.totalColumns, c.name = name := by
  have hget := LinkedMap.mem_toList_iff.mp h
  rw [get?_docTotalValues_eq] at hget
  split at hget
  · rename_i hsome
    exact hsome.1
  · exact nomatch hget

/-! ## The totals -/

theorem getTotalValue_addTotalValue (env : Runtime) (e : VirtualViewEntryData)
    (itemName name : JSString) (value : ℚ) :
    (e.addTotalValue env itemName value).getTotalValue env name
      = if env.toLowerCase name = env.toLowerCase itemName then
          some ((e.getTotalValue env name).getD 0 + value)
        else e.getTotalValue env name := by
  rw [addTotalValue, VirtualViewEntryData.getTotalValue, LinkedMap.get?_set]
  split
  · rename_i hkey
    rw [VirtualViewEntryData.getTotalValue, hkey]
  · rfl

/-- Only the number of the column itself goes into its total. -/
theorem getTotalValue_foldl_addTotalValue (hapart : view.NamesApart)
    (hcolumn : column ∈ view.totalColumns) (sign : ℚ) (numbers : List (JSString × ℚ))
    (hnodup : (numbers.map Prod.fst).Nodup)
    (hnames : ∀ number ∈ numbers, ∃ c ∈ view.totalColumns, c.name = number.1)
    (e : VirtualViewEntryData) :
    (numbers.foldl (fun parent t => parent.addTotalValue view.env t.1 (sign * t.2))
        e).getTotalValue view.env column.name
      = match numbers.lookup column.name with
        | none => e.getTotalValue view.env column.name
        | some n => some ((e.getTotalValue view.env column.name).getD 0 + sign * n) := by
  induction numbers generalizing e with
  | nil => rfl
  | cons number numbers ih =>
    obtain ⟨name, n⟩ := number
    obtain ⟨hnot, hnodup'⟩ := nodup_cons.mp hnodup
    have hrest := ih hnodup' (fun number h => hnames number (mem_cons_of_mem _ h))
      (e.addTotalValue view.env name (sign * n))
    rw [foldl_cons, hrest, getTotalValue_addTotalValue]
    by_cases hname : column.name = name
    · subst hname
      have hnone : numbers.lookup column.name = none := by
        refine lookup_eq_none_iff.mpr fun p hp => ?_
        have hmem : p.1 ∈ numbers.map Prod.fst := mem_map_of_mem hp
        have hne : column.name ≠ p.1 := fun heq => hnot (heq ▸ hmem)
        simpa using hne
      simp [hnone]
    · have hkey : view.env.toLowerCase column.name ≠ view.env.toLowerCase name := by
        obtain ⟨c, hc, rfl⟩ := hnames (name, n) mem_cons_self
        exact fun heq => hname (hapart.name column hcolumn c hc heq)
      have hbeq : (column.name == name) = false := beq_eq_false_iff_ne.mpr hname
      rw [if_neg hkey, lookup_cons, hbeq]

theorem getTotalValue_computeTotalColumnValues (env : Runtime) (columns : List VirtualViewColumn)
    (e : VirtualViewEntryData) (name : JSString) :
    (e.computeTotalColumnValues env columns).getTotalValue env name
      = e.getTotalValue env name := by
  rw [computeTotalColumnValues_eq]
  rfl

/-- **A document changes a total by its number**, if it brings one. -/
theorem getTotalValue_addDocTotals (hapart : view.NamesApart)
    (hcolumn : column ∈ view.totalColumns) (values : ColumnValues) (sign : ℚ)
    (e : VirtualViewEntryData) :
    (view.addDocTotals values sign e).getTotalValue view.env column.name
      = match view.numberIn column values with
        | none => e.getTotalValue view.env column.name
        | some n => some ((e.getTotalValue view.env column.name).getD 0 + sign * n) := by
  rw [addDocTotals, getTotalValue_computeTotalColumnValues,
    getTotalValue_foldl_addTotalValue hapart hcolumn sign _ (view.docTotalValues values).nodupKeys
      (fun number h => exists_of_mem_docTotalValues h),
    ← get?_docTotalValues hcolumn]
  rfl

/-! ## What is shown -/

theorem get?_setColumnValue (e : VirtualViewEntryData) (name name' : JSString)
    (value : Option ColumnValue) : (e.setColumnValue name value).columnValues.get? name'
      = if name' = name then value else e.columnValues.get? name' := by
  cases value with
  | none => exact LinkedMap.get?_delete _ _ _
  | some v => exact LinkedMap.get?_set _ _ _ _

/-- Columns of one name show one value. -/
theorem totalColumnValue_eq_of_name (hapart : view.NamesApart) {c c' : VirtualViewColumn}
    (hc : c ∈ view.totalColumns) (hc' : c' ∈ view.totalColumns) (hname : c.name = c'.name)
    (e : VirtualViewEntryData) :
    e.totalColumnValue view.env c = e.totalColumnValue view.env c' := by
  rw [totalColumnValue, totalColumnValue, hname, hapart.totalMode c hc c' hc' hname]

/-- **Every total column shows its own total**, those that showed it before included. -/
theorem get?_computeTotalColumnValues (hapart : view.NamesApart)
    (hcolumn : column ∈ view.totalColumns) {columns : List VirtualViewColumn}
    (hsub : columns ⊆ view.totalColumns) (h : column ∈ columns
      ∨ e.columnValues.get? column.name = e.totalColumnValue view.env column) :
    (e.computeTotalColumnValues view.env columns).columnValues.get? column.name
      = e.totalColumnValue view.env column := by
  induction columns generalizing e with
  | nil => exact h.resolve_left not_mem_nil
  | cons c columns ih =>
    obtain ⟨hc, hsub'⟩ := cons_subset.mp hsub
    refine ih (e := e.setColumnValue c.name (e.totalColumnValue view.env c)) hsub' ?_
    rw [get?_setColumnValue]
    change _ ∨ (if _ then _ else _) = e.totalColumnValue view.env column
    split
    · rename_i hname
      exact .inr (totalColumnValue_eq_of_name hapart hcolumn hc hname e).symm
    · rename_i hname
      exact h.imp_left fun hmem => (mem_cons.mp hmem).resolve_left fun heq => hname (heq ▸ rfl)

variable (view) in
/-- **An entry shows its total of a column**, an average being divided by a count. -/
def ShowsBy (count : ℤ) (column : VirtualViewColumn) (e : VirtualViewEntryData) : Prop :=
  ∀ t, e.getTotalValue view.env column.name = some t → e.columnValues.get? column.name
    = some (.number (if column.totalMode = .AVERAGE then t / count else t))

theorem showsBy_addDocTotals (hapart : view.NamesApart) (hcolumn : column ∈ view.totalColumns)
    (values : ColumnValues) (sign : ℚ) (hcount : e.descendantDocumentCount ≠ 0) :
    view.ShowsBy e.descendantDocumentCount column (view.addDocTotals values sign e) := by
  intro t ht
  rw [addDocTotals, getTotalValue_computeTotalColumnValues] at ht
  rw [addDocTotals, get?_computeTotalColumnValues hapart hcolumn (List.Subset.refl _)
    (Or.inl hcolumn), totalColumnValue, ht, Option.bind_some, foldl_addTotalValue_eq]
  simp only [if_neg hcount]
  split <;> rfl

/-- **A document that is added** leaves an average over the documents there are. -/
theorem showsBy_docUp (hapart : view.NamesApart) (hcolumn : column ∈ view.totalColumns)
    (values : ColumnValues) (hcount : 0 ≤ e.descendantDocumentCount) :
    view.ShowsBy (e.descendantDocumentCount + 1) column (view.docUp values e) :=
  showsBy_addDocTotals (e := e.incrementDescendantCount false) hapart hcolumn values 1
    (by rw [incrementDescendantCount]; simp; omega)

/-- Where a total is zero the count does not matter. -/
theorem ShowsBy.of_zero {count : ℤ} (h : view.ShowsBy count column e)
    (hzero : ∀ t, e.getTotalValue view.env column.name = some t → t = 0) (count' : ℤ) :
    view.ShowsBy count' column e := by
  intro t ht
  have hshown := h t ht
  rw [hzero t ht, zero_div] at hshown
  rw [hzero t ht, zero_div]
  exact hshown

/-! ## The other changes -/

/-- Two states of an entry that show the same totals. -/
structure SameTotals (e e' : VirtualViewEntryData) : Prop where
  totalValues : e'.totalValues = e.totalValues
  columnValues : e'.columnValues = e.columnValues
  descendantDocumentCount : e'.descendantDocumentCount = e.descendantDocumentCount

namespace SameTotals

variable {e' : VirtualViewEntryData}

theorem refl (e : VirtualViewEntryData) : SameTotals e e := by constructor <;> rfl

theorem trans {e'' : VirtualViewEntryData} (h : SameTotals e e') (h' : SameTotals e' e'') :
    SameTotals e e'' :=
  ⟨h'.totalValues.trans h.totalValues, h'.columnValues.trans h.columnValues,
    h'.descendantDocumentCount.trans h.descendantDocumentCount⟩

theorem gainChild (env : Runtime) (child e : VirtualViewEntryData) :
    SameTotals e (ViewIndex.gainChild env child e) := by constructor <;> rfl

theorem loseChild (env : Runtime) (child e : VirtualViewEntryData) :
    SameTotals e (ViewIndex.loseChild env child e) := by constructor <;> rfl

theorem of_renumbered (h : Renumbered e e') : SameTotals e e' := by
  obtain ⟨_, _, _, _, rfl⟩ := h
  constructor <;> rfl

theorem getTotalValue (h : SameTotals e e') (env : Runtime) (name : JSString) :
    e'.getTotalValue env name = e.getTotalValue env name := by
  rw [VirtualViewEntryData.getTotalValue, VirtualViewEntryData.getTotalValue, h.totalValues]

theorem showsBy (h : SameTotals e e') {count : ℤ} (hshows : view.ShowsBy count column e) :
    view.ShowsBy count column e' := by
  intro t ht
  rw [h.getTotalValue] at ht
  rw [h.columnValues]
  exact hshows t ht

end SameTotals

theorem SameTotals.incrementCategories (e : VirtualViewEntryData) :
    SameTotals e (e.incrementDescendantCount true) := by
  refine ⟨rfl, rfl, ?_⟩
  exact add_zero _

end VirtualView

end MindooDB
