import MindooDB.View.Restored

/-!
# View/RestoredRuns — a cached view and a live one

A view whose documents came with JSON-representable values is restored from its own snapshot to
show what it showed, and whatever batches both are given then, they go on showing the same, exactly
when no document in it has the empty text for its key id (`cachedEqualsLive_iff`).
-/

namespace MindooDB

open List Option

namespace VirtualView

variable {view : VirtualView} {s : ViewIndex} {p : EntryPath} {e : VirtualViewEntryData}
  {doc : DocEntry} {changes : List VirtualViewDataChange} {change : VirtualViewDataChange}

/-! ## What a run has made -/

variable (view) in
/-- A batch has made an entry. -/
def MadeBy (changes : List VirtualViewDataChange) (p : EntryPath) (e : VirtualViewEntryData) :
    Prop :=
  ∃ change ∈ changes, ∃ doc ∈ view.acceptedDocs change, ∃ step ∈ view.docScript doc, ∃ counter,
    p = step.path view doc ∧ SameEntry (step.madeEntry view doc counter) e

/-- **Every entry but the root** has been made by a batch. -/
theorem madeBy_run {k : EntryKey} (hget : (view.run changes).entries.get? (k :: p) = some e) :
    view.MadeBy changes (k :: p) e := by
  induction changes using List.reverseRecOn generalizing e with
  | nil =>
    rw [run, foldl_nil, get?_initial, if_neg (by simp)] at hget
    cases hget
  | append_singleton changes change ih =>
    rw [run_concat] at hget
    rcases some_of_applyChanges (settled_run changes) hget with ⟨e₀, he₀, hsame⟩ |
      ⟨doc, hdoc, hmade⟩
    · obtain ⟨earlier, hearlier, doc, hdoc, step, hstep, counter, hpath, hmade⟩ := ih he₀
      exact ⟨earlier, mem_append_left _ hearlier, doc, hdoc, step, hstep, counter, hpath,
        hmade.trans hsame⟩
    · exact ⟨change, mem_append_right _ (mem_singleton_self _), doc, hdoc, hmade⟩

theorem root_run (hget : (view.run changes).entries.get? [] = some e) :
    ∃ root, view.initial.entries.get? [] = some root ∧ SameEntry root e := by
  induction changes using List.reverseRecOn generalizing e with
  | nil => exact ⟨e, hget, SameEntry.refl e⟩
  | append_singleton changes change ih =>
    rw [run_concat] at hget
    rcases some_of_applyChanges (settled_run changes) hget with ⟨e₀, he₀, hsame⟩ |
      ⟨doc, -, step, -, counter, hpath, -⟩
    · obtain ⟨root, hroot, hsame₀⟩ := ih he₀
      exact ⟨root, hroot, hsame₀.trans hsame⟩
    · cases step <;> exact absurd hpath (by simp [Placement.path, categoryPath])

/-! ## Values that come as JSON -/

/-- A value that is JSON-representable, or left out. -/
def ComesAsJson (v : ColumnValue) : Prop := v.isJson = true ∨ v = .undefined

/-- **A document whose values are JSON-representable.** -/
def DocEntry.ComesAsJson (doc : DocEntry) : Prop :=
  ∀ name v, doc.columnValues.get? name = some v → VirtualView.ComesAsJson v

theorem comesAsJson_getD (h : doc.ComesAsJson) (name : JSString) :
    ComesAsJson ((doc.columnValues.get? name).getD .undefined) := by
  cases hget : doc.columnValues.get? name with
  | none => exact .inr rfl
  | some v => exact h name v hget

variable {v : ColumnValue}

theorem isJson_of_mem_items {items : List ColumnValue}
    (h : ColumnValue.isJsonItems items = true) (hv : v ∈ items) :
    v.isJson = true := by
  induction items with
  | nil => exact nomatch hv
  | cons item items ih =>
    rw [ColumnValue.isJsonItems, Bool.and_eq_true] at h
    rcases mem_cons.mp hv with rfl | hv
    · exact h.1
    · exact ih h.2 hv

theorem isJson_of_mem_categoryValues {w : ColumnValue} (h : ComesAsJson v)
    (hw : w ∈ categoryValues v) : w.isJson = true := by
  have hplain : w ∈ (if v.sortsAsNull then [ColumnValue.null] else [v]) → w.isJson = true := by
    intro hw
    split at hw
    · rw [mem_singleton.mp hw]
      rfl
    · rename_i hnull
      rw [mem_singleton.mp hw]
      rcases h with h | rfl
      · exact h
      · exact absurd rfl hnull
  cases v with
  | array items =>
    have hitems : ColumnValue.isJsonItems items = true := by
      rcases h with h | h
      · rwa [ColumnValue.isJson] at h
      · exact nomatch h
    cases items with
    | nil =>
      rw [categoryValues, mem_singleton] at hw
      rw [hw]
      rfl
    | cons item items => exact isJson_of_mem_items hitems hw
  | _ => exact hplain hw

theorem comesAsJson_getFirstListValue (h : ComesAsJson v) :
    ComesAsJson (getFirstListValue v) := by
  cases v with
  | array items =>
    rcases h with h | h
    · cases items with
      | nil => exact .inl rfl
      | cons item items =>
        rw [ColumnValue.isJson] at h
        exact .inl (isJson_of_mem_items h mem_cons_self)
    · exact nomatch h
  | _ => exact h

/-- The categories of a script have such values. -/
theorem isJson_of_mem_partsScript {column : VirtualViewColumn} {nextDescending : Bool}
    {parts : List JSString} {level indentLevel : ℕ} {parent parent' : EntryPath}
    {itemName : JSString} {value : ColumnValue} {descending : Bool}
    (h : .category itemName value descending indentLevel parent'
      ∈ view.partsScript column nextDescending parts level parent) : value.isJson = true := by
  induction parts generalizing level parent with
  | nil => exact nomatch h
  | cons part parts ih =>
    rcases mem_cons.mp h with heq | h
    · obtain ⟨-, rfl, -⟩ := Placement.category.inj heq
      rw [partValue]
      split <;> rfl
    · exact ih h

theorem isJson_of_mem_script (hdoc : doc.ComesAsJson) {columns : List VirtualViewColumn}
    {indentLevel : ℕ} {parent parent' : EntryPath} {itemName : JSString} {value : ColumnValue}
    {descending : Bool} (h : .category itemName value descending indentLevel parent'
      ∈ view.script doc columns parent) : value.isJson = true := by
  induction columns generalizing parent with
  | nil => exact absurd h (by simp [script])
  | cons column columns ih =>
    obtain ⟨v, hv, hmem⟩ := mem_flatMap.mp h
    have hjson := isJson_of_mem_categoryValues (comesAsJson_getD hdoc column.name) hv
    rcases mem_append.mp hmem with hmem | hmem
    · have hsimple : Placement.category itemName value descending indentLevel parent'
          ∈ [Placement.category column.name v (firstDescending columns) 0 parent] →
            value.isJson = true := by
        intro hmem
        obtain ⟨-, rfl, -⟩ := Placement.category.inj (mem_singleton.mp hmem)
        exact hjson
      cases v with
      | string text =>
        rw [valueScript] at hmem
        split at hmem
        · exact isJson_of_mem_partsScript hmem
        · exact hsimple hmem
      | _ => exact hsimple hmem
    · exact ih hmem

/-! ## The values that are shown -/

/-- The values of an entry are JSON-representable. -/
def HoldsJson (e : VirtualViewEntryData) : Prop :=
  ∀ name v, e.columnValues.get? name = some v → v.isJson = true

theorem HoldsJson.of_columnValues_eq {e' : VirtualViewEntryData} (h : HoldsJson e)
    (heq : e'.columnValues = e.columnValues) : HoldsJson e' := by
  intro name v hget
  rw [heq] at hget
  exact h name v hget

theorem HoldsJson.setColumnValue (h : HoldsJson e) (name : JSString) {value : Option ColumnValue}
    (hvalue : ∀ v, value = some v → v.isJson = true) : HoldsJson (e.setColumnValue name value) := by
  intro name' v hget
  cases value with
  | none =>
    rw [VirtualViewEntryData.setColumnValue, LinkedMap.get?_delete] at hget
    split at hget
    · exact nomatch hget
    · exact h name' v hget
  | some w =>
    rw [VirtualViewEntryData.setColumnValue, LinkedMap.get?_set] at hget
    split at hget
    · exact some.inj hget ▸ hvalue w rfl
    · exact h name' v hget

/-- Totals are numbers. -/
theorem isJson_totalColumnValue {env : Runtime} {column : VirtualViewColumn}
    (h : e.totalColumnValue env column = some v) : v.isJson = true := by
  obtain ⟨total, -, htotal⟩ := bind_eq_some_iff.mp h
  split at htotal
  · split at htotal
    · exact nomatch htotal
    · exact some.inj htotal ▸ rfl
  · exact some.inj htotal ▸ rfl

theorem HoldsJson.computeTotalColumnValues (h : HoldsJson e) (env : Runtime)
    (columns : List VirtualViewColumn) : HoldsJson (e.computeTotalColumnValues env columns) := by
  rw [VirtualViewEntryData.computeTotalColumnValues]
  induction columns generalizing e with
  | nil => exact h
  | cons column columns ih =>
    exact ih (h.setColumnValue column.name fun v hv => isJson_totalColumnValue hv)

theorem HoldsJson.addDocTotals (h : HoldsJson e) (values : ColumnValues) (sign : ℚ) :
    HoldsJson (view.addDocTotals values sign e) := by
  refine HoldsJson.computeTotalColumnValues (h.of_columnValues_eq ?_) view.env _
  rw [foldl_addTotalValue_eq]

theorem HoldsJson.told (h : HoldsJson e) {up : VirtualViewEntryData → VirtualViewEntryData}
    (hup : TellsAbove view up) : HoldsJson (up e) := by
  cases hup with
  | docUp values =>
    have hcounted : HoldsJson (e.incrementDescendantCount false) := h.of_columnValues_eq rfl
    exact hcounted.addDocTotals values 1
  | docDown values => exact (h.addDocTotals values (-1)).of_columnValues_eq rfl
  | incrementCategories => exact h.of_columnValues_eq rfl
  | unchanged => exact h

theorem HoldsJson.changed (h : HoldsJson e) {move up : VirtualViewEntryData → VirtualViewEntryData}
    (hmove : ∀ e, (move e).columnValues = e.columnValues) (hup : TellsAbove view up)
    (parent p : EntryPath) : HoldsJson (changed move up parent p e) := by
  have hmoved : HoldsJson ((if p = parent then move else id) e) := by
    split
    · exact h.of_columnValues_eq (hmove e)
    · exact h
  rw [MindooDB.changed]
  split
  · exact hmoved.told hup
  · exact hmoved

theorem holdsJson_madeEntry (hdoc : doc.ComesAsJson) {step : Placement}
    (hstep : step ∈ view.docScript doc) (counter : ℕ) :
    HoldsJson (step.madeEntry view doc counter) := by
  intro name v hget
  cases step with
  | document =>
    have hmem := LinkedMap.mem_toList_iff.mpr hget
    obtain ⟨hmem, hdefined⟩ := mem_filter.mp hmem
    rcases hdoc name v (LinkedMap.mem_toList_iff.mp hmem) with hjson | rfl
    · exact hjson
    · exact nomatch hdefined
  | category itemName value =>
    have hjson := isJson_of_mem_script hdoc hstep
    simp only [Placement.madeEntry, categoryEntryData] at hget
    split at hget
    · exact nomatch hget
    · rw [LinkedMap.get?_set] at hget
      split at hget
      · exact some.inj hget ▸ hjson
      · exact nomatch hget

/-- **All values of a view are JSON-representable.** -/
def ShowsJson (s : ViewIndex) : Prop := ∀ p e, s.entries.get? p = some e → HoldsJson e

theorem keptByMoves_showsJson {docs : List DocEntry} (hdocs : ∀ doc ∈ docs, doc.ComesAsJson) :
    KeptByMoves view docs ShowsJson where
  hang {s doc step counter up parent} hdoc hstep _ _ hup h p e' hget := by
    rw [ViewIndex.get?_hang] at hget
    split at hget
    · obtain rfl := some.inj hget
      exact holdsJson_madeEntry (hdocs doc hdoc) hstep counter
    · obtain ⟨e, he, rfl⟩ := map_eq_some_iff.mp hget
      have hgain : ∀ e, (ViewIndex.gainChild view.env (step.madeEntry view doc counter)
          e).columnValues = e.columnValues := fun _ => rfl
      exact HoldsJson.changed (h p e he) hgain hup parent p
  unhang {s entry up key parent} _ _ hup h p e' hget := by
    rw [ViewIndex.get?_unhang] at hget
    split at hget
    · exact nomatch hget
    · obtain ⟨e, he, rfl⟩ := map_eq_some_iff.mp hget
      have hlose : ∀ e, (ViewIndex.loseChild view.env entry e).columnValues = e.columnValues :=
        fun _ => rfl
      exact HoldsJson.changed (h p e he) hlose hup parent p
  relist heq h p e hget := h p e (heq ▸ hget)
  flush {s} _ h p e' hget := by
    obtain ⟨e, he, hr⟩ :=
      (renumbersMany_some (renumbers_processPendingSiblingIndexUpdates view s)).1 hget
    exact (h p e he).of_columnValues_eq (columnValues_renumbered hr)

variable (view) in
/-- **All documents come with JSON-representable values.** -/
def ComeAsJson (changes : List VirtualViewDataChange) : Prop :=
  ∀ change ∈ changes, ∀ doc ∈ view.acceptedDocs change, doc.ComesAsJson

theorem showsJson_run (h : view.ComeAsJson changes) : ShowsJson (view.run changes) := by
  refine KeptByMoves.run (fun change hchange => keptByMoves_showsJson (h change hchange))
    fun p e hget => ?_
  rw [get?_initial] at hget
  split at hget
  · obtain rfl := some.inj hget
    nofun
  · exact nomatch hget

/-! ## The copies of a run -/

/-- The sort keys of a run have such values, or `undefined`. -/
theorem comesAsJson_sortKey (h : view.ComeAsJson changes)
    (hget : (view.run changes).entries.get? p = some e)
    (hv : v ∈ e.sortKey.values) : ComesAsJson v := by
  cases p with
  | nil =>
    obtain ⟨root, hroot, hsame⟩ := root_run hget
    obtain rfl := some.inj hroot
    rw [hsame.sortKey] at hv
    exact nomatch hv
  | cons k p =>
    obtain ⟨change, hchange, doc, hdoc, step, hstep, counter, -, hsame⟩ := madeBy_run hget
    rw [hsame.sortKey] at hv
    cases step with
    | document =>
      obtain ⟨column, -, rfl⟩ := List.mem_map.mp hv
      exact comesAsJson_getFirstListValue (comesAsJson_getD (h change hchange doc hdoc) column.name)
    | category =>
      rw [mem_singleton.mp hv]
      exact .inl (isJson_of_mem_script (h change hchange doc hdoc) hstep)

theorem childrenComparator_run (hget : (view.run changes).entries.get? p = some e) :
    e.childrenComparator = view.childComparator e.childrenComparator.categoryOrderDescending := by
  cases p with
  | nil =>
    obtain ⟨root, hroot, hsame⟩ := root_run hget
    obtain rfl := some.inj hroot
    rw [hsame.childrenComparator]
    rfl
  | cons k p =>
    obtain ⟨_, _, _, _, step, _, _, _, hsame⟩ := madeBy_run hget
    rw [hsame.childrenComparator]
    cases step <;> rfl

theorem decryptionKeyId_category_run (hget : (view.run changes).entries.get? p = some e)
    (hcat : e.isCategory = true) : e.decryptionKeyId = none := by
  cases p with
  | nil =>
    obtain ⟨root, hroot, hsame⟩ := root_run hget
    obtain rfl := some.inj hroot
    rw [hsame.decryptionKeyId]
  | cons k p =>
    obtain ⟨_, _, _, _, step, _, _, _, hsame⟩ := madeBy_run hget
    rw [hsame.decryptionKeyId]
    cases step with
    | document => exact nomatch hsame.isCategory.symm.trans hcat
    | category => rfl

theorem knownDocument_run (hown : ∀ change ∈ changes, change.origin ≠ ORIGIN_VIRTUALVIEW)
    {k : EntryKey} (hget : (view.run changes).entries.get? (k :: p) = some e)
    (hdoc : e.isCategory = false) : KnownDocument k e := by
  obtain ⟨change, hchange, doc, hmem, step, -, counter, hpath, hsame⟩ := madeBy_run hget
  cases step with
  | category => exact absurd (hsame.isCategory.symm.trans hdoc) Bool.false_ne_true.symm
  | document =>
    have horigin : e.origin = doc.origin := hsame.origin
    have hdocId : e.docId = doc.docId := hsame.docId
    refine ⟨?_, ?_⟩
    · rw [(List.cons.inj hpath).1, horigin, hdocId]
      rfl
    · rw [horigin, origin_of_mem_acceptedDocs hmem]
      exact hown change hchange

/-- **No document of a view has the empty text for its key id.** -/
def NoEmptyKeyId (s : ViewIndex) : Prop :=
  ∀ p e, s.entries.get? p = some e → e.isCategory = false →
    e.decryptionKeyId ≠ some ("" : JSString)

/-- **The key id that comes back** is the key id, unless it is the empty text. -/
theorem decryptionKeyId_copyOf (hcategory : e.isCategory = true → e.decryptionKeyId = none) :
    (copyOf view e).decryptionKeyId = e.decryptionKeyId
      ↔ e.decryptionKeyId ≠ some ("" : JSString) := by
  have hcopy : (copyOf view e).decryptionKeyId
      = if e.isCategory then none else e.decryptionKeyId.filter fun keyId => !keyId.isEmpty := rfl
  rw [hcopy]
  cases hkind : e.isCategory with
  | true =>
    rw [hcategory hkind]
    simp
  | false =>
    cases hkey : e.decryptionKeyId with
    | none => simp
    | some keyId =>
      have hempty : keyId.isEmpty = true ↔ keyId = "" :=
        List.isEmpty_iff.trans ⟨fun h => JSString.units_injective h, fun h => by rw [h]; rfl⟩
      rw [if_neg Bool.false_ne_true, filter_some]
      cases htest : keyId.isEmpty with
      | true => simp [hempty.mp htest]
      | false =>
        have hne : keyId ≠ "" := fun heq => absurd (hempty.mpr heq) (by simp [htest])
        simp [hne]

/-- **The copies of a run are twins**, where no key id is the empty text. -/
theorem twin_run (hjson : view.ComeAsJson changes) (hkeys : NoEmptyKeyId (view.run changes))
    (hget : (view.run changes).entries.get? p = some e) : TwinEntries view.env e (copyOf view e) := by
  have hvalues := showsJson_run hjson p e hget
  have hkeyId : (copyOf view e).decryptionKeyId = e.decryptionKeyId := by
    have hcategory := decryptionKeyId_category_run hget
    refine (decryptionKeyId_copyOf hcategory).mpr ?_
    cases hkind : e.isCategory with
    | true => rw [hcategory hkind]; simp
    | false => exact hkeys p e hget hkind
  have hcolumns : (copyOf view e).columnValues = e.columnValues := by
    show VirtualViewEntryData.definedValues (jsonCopyValues view.env.toISOString e.columnValues)
      = e.columnValues
    rw [jsonCopyValues_of_isJson _ hvalues, definedValues_of_isJson hvalues]
  have htotals : (copyOf view e).totalValues = e.totalValues := by
    show (if e.totalValues.size > 0 then some e.totalValues else none).getD ∅ = e.totalValues
    split
    · rfl
    · rename_i hsize
      exact (LinkedMap.ext (length_eq_zero_iff.mp (Nat.eq_zero_of_not_pos hsize))).symm
  have hcomparator : (copyOf view e).childrenComparator = e.childrenComparator := by
    rw [childrenComparator_run hget]
    rfl
  refine ⟨?_, sameKey_jsonCopy fun v hv => comesAsJson_sortKey hjson hget hv⟩
  have hcore : (copyOf view e).core
      = { e.core with
          childrenComparator := (copyOf view e).childrenComparator
          columnValues := (copyOf view e).columnValues
          decryptionKeyId := (copyOf view e).decryptionKeyId
          totalValues := (copyOf view e).totalValues } := rfl
  rw [hcore, hcomparator, hcolumns, hkeyId, htotals]
  rfl

theorem copyable_run (hcollates : view.env.Collates)
    (hown : ∀ change ∈ changes, change.origin ≠ ORIGIN_VIRTUALVIEW)
    (hjson : view.ComeAsJson changes) (hkeys : NoEmptyKeyId (view.run changes)) :
    Copyable view (view.run changes) where
  maintained := maintained_run hcollates hown
  twin _ _ hget := twin_run hjson hkeys hget
  known _ _ _ hget hdoc := knownDocument_run hown hget hdoc

end VirtualView

open VirtualView

/-! ## The cached view and the live one -/

namespace VirtualView

/-- A fresh view of the same columns, restored from the snapshot of a run. -/
def restoredRun (view : VirtualView) (style : CategorizationStyle)
    (changes : List VirtualViewDataChange) : VirtualView × ViewIndex :=
  restoreFromTreeSnapshot { view with categorizationStyle := style }
    ((view.exportCacheState (view.run changes)).jsonCopy view.env.toISOString)

/-- **The cached view equals the live one**, and goes on doing so whatever batches both are
given. -/
def CachedEqualsLive (view : VirtualView) (style : CategorizationStyle)
    (changes : List VirtualViewDataChange) : Prop :=
  ∀ further : List VirtualViewDataChange,
    (∀ change ∈ further, change.origin ≠ ORIGIN_VIRTUALVIEW) →
      SameView view.env (further.foldl view.applyChanges (view.run changes))
        (further.foldl (view.restoredRun style changes).1.applyChanges
          (view.restoredRun style changes).2)

end VirtualView

theorem restoredRun_eq (view : VirtualView) (style : CategorizationStyle)
    (changes : List VirtualViewDataChange) :
    view.restoredRun style changes = (view, restoredFrom view (view.run changes)) := rfl

/-- **A cached view equals the live one, now and after all further batches**, exactly when no
document in it has the empty text for its key id. -/
theorem cachedEqualsLive_iff (view : VirtualView) (style : CategorizationStyle)
    (changes : List VirtualViewDataChange) (hcollates : view.env.Collates)
    (hown : ∀ change ∈ changes, change.origin ≠ ORIGIN_VIRTUALVIEW)
    (hjson : view.ComeAsJson changes) :
    view.CachedEqualsLive style changes ↔ NoEmptyKeyId (view.run changes) := by
  have horderly := (maintained_run hcollates hown).orderly
  have hrestored := restored_restoredFrom horderly
  constructor
  · intro hequal p e hget hdoc
    have hnow : SameView view.env (view.run changes) (restoredFrom view (view.run changes)) :=
      hequal [] fun _ h => absurd h not_mem_nil
    have hshown := hnow.entries p e _ hget (hrestored.of_some hget)
    refine (decryptionKeyId_copyOf fun hcat => ?_).mp hshown.decryptionKeyId
    exact absurd (hcat.symm.trans hdoc) (by simp)
  · intro hkeys further hfurther
    have hcopyable := copyable_run hcollates hown hjson hkeys
    obtain ⟨htwins, hlive, hcached⟩ := (hrestored.twins hcopyable).foldl_applyChanges hcollates
      hcopyable.maintained (hrestored.maintained hcopyable) hfurther
    rw [restoredRun_eq]
    exact htwins.sameView hlive hcached

/-- A batch of one document of kind `a` with a key id. -/
def addKeyed (keyId : JSString) : VirtualViewDataChange where
  origin := "o"
  additions := (∅ : LinkedMap JSString EntryData).set "d"
    ⟨(∅ : ColumnValues).set "kind" (.string "a"), some keyId⟩

theorem comesAsJson_addKeyed (keyId : JSString) : byKind.ComeAsJson [addKeyed keyId] := by
  intro change hchange doc hdoc name v hget
  rw [mem_singleton.mp hchange] at hdoc
  rw [mem_singleton.mp hdoc] at hget
  rw [LinkedMap.get?_set] at hget
  split at hget
  · exact .inl (some.inj hget ▸ rfl)
  · exact nomatch hget

theorem cachedEqualsLive_addKeyed :
    byKind.CachedEqualsLive .DOCUMENT_THEN_CATEGORY [addKeyed "k"]
      ↔ NoEmptyKeyId (byKind.run [addKeyed "k"]) :=
  cachedEqualsLive_iff byKind _ _ ⟨Orders.const, Orders.const, Orders.const⟩ (by decide)
    (comesAsJson_addKeyed "k")

/-- The path of that document. -/
def keyedPath : EntryPath := ⟨false, [.endArray], "o:d"⟩ :: kindPath

/-- **The empty key id is lost.** -/
theorem not_cachedEqualsLive_addKeyed :
    (∀ change ∈ [addKeyed ""], change.origin ≠ ORIGIN_VIRTUALVIEW)
      ∧ byKind.ComeAsJson [addKeyed ""]
      ∧ ¬byKind.CachedEqualsLive .CATEGORY_THEN_DOCUMENT [addKeyed ""] := by
  refine ⟨by decide, comesAsJson_addKeyed "", fun hequal => ?_⟩
  have hnow : SameView byKind.env (byKind.run [addKeyed ""])
      (byKind.restoredRun .CATEGORY_THEN_DOCUMENT [addKeyed ""]).2 :=
    hequal [] fun _ h => absurd h not_mem_nil
  have hlive : ((byKind.run [addKeyed ""]).entries.get? keyedPath).map
      (·.decryptionKeyId.isSome) = some true := by decide +kernel
  have hcached : ((byKind.restoredRun .CATEGORY_THEN_DOCUMENT [addKeyed ""]).2.entries.get?
      keyedPath).map (·.decryptionKeyId.isSome) = some false := by decide +kernel
  obtain ⟨e, he, hkey⟩ := map_eq_some_iff.mp hlive
  obtain ⟨e', he', hkey'⟩ := map_eq_some_iff.mp hcached
  have hsame := (hnow.entries keyedPath e e' he he').decryptionKeyId
  rw [hsame, hkey] at hkey'
  exact absurd hkey' (by simp)

end MindooDB
