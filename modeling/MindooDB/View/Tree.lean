import MindooDB.View.Batch

/-!
# View/Tree — the shape of a view's tree

`Tree` says that every entry hangs below a category, under its own key.  Applying a batch is a
sequence of entries hung up and taken down (`Hangs`, `Unhangs`, `Drops`), so what each of these
preserves holds after every batch.
-/

namespace MindooDB

open LinkedMap List Option Relation SameEntry

variable {e e' : VirtualViewEntryData}

namespace ViewIndex

variable {env : Runtime} {s : ViewIndex} {child : VirtualViewEntryData}
  {up : VirtualViewEntryData → VirtualViewEntryData} {key : EntryKey} {parent path : EntryPath}

/-- An entry after one is hung up: the new one, or one from before. -/
theorem some_of_hang (hup : ∀ e, SameEntry e (up e))
    (h : (s.hang env child up parent).entries.get? path = some e') :
    (path = child.sortKey.toKey env :: parent ∧ e' = child) ∨
      path ≠ child.sortKey.toKey env :: parent ∧
        ∃ e, s.entries.get? path = some e ∧ SameEntry e e' := by
  rw [get?_hang] at h
  split at h
  · rename_i hpath
    exact .inl ⟨hpath, (some.inj h).symm⟩
  · rename_i hpath
    obtain ⟨e, he, rfl⟩ := map_eq_some_iff.mp h
    refine .inr ⟨hpath, e, he, ?_⟩
    have hgain : SameEntry e ((if path = parent then gainChild env child else id) e) := by
      split
      · exact SameEntry.gainChild env child e
      · exact refl e
    split
    · exact hgain.trans (hup _)
    · exact hgain

theorem hang_of_some (hup : ∀ e, SameEntry e (up e))
    (hfresh : s.entries.get? (child.sortKey.toKey env :: parent) = none)
    (h : s.entries.get? path = some e) :
    ∃ e', (s.hang env child up parent).entries.get? path = some e' ∧ SameEntry e e' := by
  have hpath : path ≠ child.sortKey.toKey env :: parent := by
    rintro rfl
    exact nomatch hfresh.symm.trans h
  have hget := get?_hang env s child up parent path
  rw [if_neg hpath, h, map_some] at hget
  rcases some_of_hang hup hget with ⟨hnew, -⟩ | ⟨-, e₀, he₀, hsame⟩
  · exact absurd hnew hpath
  · obtain rfl := some.inj (h.symm.trans he₀)
    exact ⟨_, hget, hsame⟩

theorem hang_new : (s.hang env child up parent).entries.get? (child.sortKey.toKey env :: parent)
    = some child := by
  rw [get?_hang, if_pos rfl]

/-- An entry after one is taken down is one from before. -/
theorem some_of_unhang (hup : ∀ e, SameEntry e (up e))
    (h : (s.unhang env child up key parent).entries.get? path = some e') :
    path ≠ key :: parent ∧ ∃ e, s.entries.get? path = some e ∧ SameEntry e e' := by
  rw [get?_unhang] at h
  split at h
  · cases h
  · rename_i hpath
    obtain ⟨e, he, rfl⟩ := map_eq_some_iff.mp h
    refine ⟨hpath, e, he, ?_⟩
    have hlose : SameEntry e ((if path = parent then loseChild env child else id) e) := by
      split
      · exact SameEntry.loseChild env child e
      · exact refl e
    split
    · exact hlose.trans (hup _)
    · exact hlose

theorem unhang_of_some (hup : ∀ e, SameEntry e (up e)) (hpath : path ≠ key :: parent)
    (h : s.entries.get? path = some e) :
    ∃ e', (s.unhang env child up key parent).entries.get? path = some e' ∧ SameEntry e e' := by
  have hget := get?_unhang env s child up key parent path
  rw [if_neg hpath, h, map_some] at hget
  obtain ⟨-, e₀, he₀, hsame⟩ := some_of_unhang hup hget
  obtain rfl := some.inj (h.symm.trans he₀)
  exact ⟨_, hget, hsame⟩

theorem unhang_gone : (s.unhang env child up key parent).entries.get? (key :: parent) = none := by
  rw [get?_unhang, if_pos rfl]

end ViewIndex

/-- **Every entry hangs below a category, under its own key.** -/
structure Tree (env : Runtime) (s : ViewIndex) : Prop where
  root : s.HasCategory []
  parent : ∀ {key parent entry}, s.entries.get? (key :: parent) = some entry →
    s.HasCategory parent
  key : ∀ {key parent entry}, s.entries.get? (key :: parent) = some entry →
    entry.sortKey.toKey env = key

namespace Tree

variable {env : Runtime} {s : ViewIndex} {child : VirtualViewEntryData}
  {up : VirtualViewEntryData → VirtualViewEntryData} {key : EntryKey} {parent path : EntryPath}

variable {entry : VirtualViewEntryData}

theorem isCategory_eq (h : Tree env s)
    (hget : s.entries.get? (key :: parent) = some entry) : entry.isCategory = key.isCategory :=
  congrArg EntryKey.isCategory (h.key hget)

/-- Everything on the way down to an entry is there. -/
theorem exists_of_suffix (h : Tree env s) {p q : EntryPath}
    (hget : s.entries.get? q = some entry) (hp : p <:+ q) : ∃ e, s.entries.get? p = some e := by
  induction q generalizing entry with
  | nil => exact ⟨entry, by rwa [suffix_nil.mp hp]⟩
  | cons k q ih =>
    rcases suffix_cons_iff.mp hp with rfl | hp
    · exact ⟨entry, hget⟩
    · obtain ⟨e, he, -⟩ := h.parent hget
      exact ih he hp

theorem hasCategory_of_suffix (h : Tree env s) {p q : EntryPath}
    (hget : s.entries.get? (key :: q) = some entry) (hp : p <:+ q) : s.HasCategory p := by
  induction q generalizing key entry with
  | nil =>
    rw [suffix_nil.mp hp]
    exact h.root
  | cons k q ih =>
    rcases suffix_cons_iff.mp hp with rfl | hp
    · exact h.parent hget
    · obtain ⟨e, he, -⟩ := h.parent hget
      exact ih he hp

theorem exists_cons_suffix {p q : EntryPath} (h : p <:+ q) (hne : q ≠ p) : ∃ k, k :: p <:+ q := by
  obtain ⟨above, rfl⟩ := h
  rcases eq_nil_or_concat above with rfl | ⟨above, k, rfl⟩
  · exact absurd rfl hne
  · exact ⟨k, above, by simp⟩

/-- The next entry on the way down to another. -/
theorem exists_child_of_suffix (h : Tree env s) {p q : EntryPath}
    (hget : s.entries.get? (key :: q) = some entry) (hp : p <:+ q) :
    ∃ k e, s.entries.get? (k :: p) = some e := by
  obtain ⟨k, hk⟩ := exists_cons_suffix (hp.trans (suffix_cons key q)) fun heq =>
    absurd (heq ▸ hp).length_le (by simp)
  obtain ⟨e, he⟩ := h.exists_of_suffix hget hk
  exact ⟨k, e, he⟩

/-- Hanging an entry up below a category keeps the shape. -/
theorem hang (h : Tree env s) (hup : ∀ e, SameEntry e (up e)) (hparent : s.HasCategory parent)
    (hfresh : s.entries.get? (child.sortKey.toKey env :: parent) = none) :
    Tree env (s.hang env child up parent) := by
  have hkeep : ∀ {p}, s.HasCategory p → (s.hang env child up parent).HasCategory p := by
    rintro p ⟨e, he, hcat⟩
    obtain ⟨e', he', hsame⟩ := ViewIndex.hang_of_some hup hfresh he
    exact ⟨e', he', hsame.isCategory.trans hcat⟩
  refine ⟨hkeep h.root, fun hget => ?_, fun hget => ?_⟩
  · rcases ViewIndex.some_of_hang hup hget with ⟨hpath, -⟩ | ⟨-, e, he, -⟩
    · obtain ⟨-, rfl⟩ := List.cons.inj hpath
      exact hkeep hparent
    · exact hkeep (h.parent he)
  · rcases ViewIndex.some_of_hang hup hget with ⟨hpath, rfl⟩ | ⟨-, e, he, hsame⟩
    · exact (List.cons.inj hpath).1.symm
    · rw [hsame.sortKey]
      exact h.key he

/-- Taking down an entry that nothing hangs below keeps the shape. -/
theorem unhang (h : Tree env s) (hup : ∀ e, SameEntry e (up e))
    (hleaf : ∀ k, s.entries.get? (k :: key :: parent) = none) :
    Tree env (s.unhang env child up key parent) := by
  have hkeep : ∀ {p}, p ≠ key :: parent → s.HasCategory p →
      (s.unhang env child up key parent).HasCategory p := by
    rintro p hp ⟨e, he, hcat⟩
    obtain ⟨e', he', hsame⟩ := ViewIndex.unhang_of_some hup hp he
    exact ⟨e', he', hsame.isCategory.trans hcat⟩
  refine ⟨hkeep (by simp) h.root, fun hget => ?_, fun hget => ?_⟩
  · obtain ⟨-, e, he, -⟩ := ViewIndex.some_of_unhang hup hget
    refine hkeep ?_ (h.parent he)
    rintro rfl
    cases (hleaf _).symm.trans he
  · obtain ⟨-, e, he, hsame⟩ := ViewIndex.some_of_unhang hup hget
    rw [hsame.sortKey]
    exact h.key he

/-- Nothing hangs below a document. -/
theorem leaf_of_document (h : Tree env s)
    (hget : s.entries.get? path = some entry) (hdoc : entry.isCategory = false) (k : EntryKey) :
    s.entries.get? (k :: path) = none := by
  cases hk : s.entries.get? (k :: path) with
  | none => rfl
  | some e =>
    obtain ⟨e', he', hcat⟩ := h.parent hk
    obtain rfl := some.inj (hget.symm.trans he')
    exact nomatch hdoc.symm.trans hcat

end Tree

/-! ## The steps of a batch -/

namespace VirtualView

variable (view : VirtualView)

/-- **A step of the script of a document that changes the tree.** -/
inductive Hangs (doc : DocEntry) (steps : List Placement) : ViewIndex → ViewIndex → Prop
  | document {s : ViewIndex} {parent : EntryPath} (hstep : .document parent ∈ steps)
      (hparent : s.HasCategory parent)
      (hfresh : s.entries.get? ((view.docSortKey doc).toKey view.env :: parent) = none) :
      Hangs doc steps s (s.hang view.env (view.docEntryData doc)
        (view.docUp (VirtualViewEntryData.definedValues doc.columnValues)) parent)
  | category {s : ViewIndex} {itemName : JSString} {value : ColumnValue} {descending : Bool}
      {indentLevel : ℕ} {parent : EntryPath}
      (hstep : .category itemName value descending indentLevel parent ∈ steps)
      (hparent : s.HasCategory parent)
      (hfresh : s.entries.get? (view.categoryPath value parent) = none)
      (lists : LinkedMap JSString (List Occurrence)) (counter : ℕ)
      (hlists : lists = s.entriesByDocId.set
        (scopedDocIdKey ORIGIN_VIRTUALVIEW (("cat_" : JSString) ++ JSString.ofNat counter))
        [categoryOccurrence (view.categoryEntryData itemName value descending indentLevel counter)
          (view.categoryPath value parent)]) :
      Hangs doc steps s
        { s.hang view.env
            (view.categoryEntryData itemName value descending indentLevel counter)
            (·.incrementDescendantCount true) parent with
          entriesByDocId := lists, categoryIdCounter := counter }

/-- The path a step of a script fills. -/
def Placement.path (doc : DocEntry) : Placement → EntryPath
  | .category _ value _ _ parent => view.categoryPath value parent
  | .document parent => (view.docSortKey doc).toKey view.env :: parent

/-- The entry a step makes. -/
def Placement.madeEntry (doc : DocEntry) (counter : ℕ) : Placement → VirtualViewEntryData
  | .category itemName value descending indentLevel _ =>
    view.categoryEntryData itemName value descending indentLevel counter
  | .document _ => view.docEntryData doc

variable {view} {doc : DocEntry} {steps : List Placement}

variable {s s' : ViewIndex} {path : EntryPath} {allowed : List Occurrence}

theorem Hangs.tree (h : view.Hangs doc steps s s') (htree : Tree view.env s) :
    Tree view.env s' := by
  cases h with
  | document _ hparent hfresh => exact htree.hang (SameEntry.docUp view _) hparent hfresh
  | @category itemName value descending indentLevel parent _ hparent hfresh _ counter =>
    have h : Tree view.env (s.hang view.env
        (view.categoryEntryData itemName value descending indentLevel counter)
        (·.incrementDescendantCount true) parent) :=
      htree.hang (incrementDescendantCount true) hparent hfresh
    exact ⟨h.root, h.parent, h.key⟩

/-- What is in the tree stays. -/
theorem Hangs.of_some (h : view.Hangs doc steps s s') (hget : s.entries.get? path = some e) :
    ∃ e', s'.entries.get? path = some e' ∧ SameEntry e e' := by
  cases h with
  | document _ _ hfresh => exact ViewIndex.hang_of_some (SameEntry.docUp view _) hfresh hget
  | category _ _ hfresh =>
    exact ViewIndex.hang_of_some (incrementDescendantCount true) hfresh hget

/-- What is in the tree was there before, or a step has made it. -/
theorem Hangs.some_of (h : view.Hangs doc steps s s') (hget : s'.entries.get? path = some e') :
    (∃ e, s.entries.get? path = some e ∧ SameEntry e e') ∨
      s.entries.get? path = none ∧ ∃ step ∈ steps, ∃ counter, path = step.path view doc
        ∧ e' = step.madeEntry view doc counter := by
  cases h with
  | @document parent hstep _ hfresh =>
    rcases ViewIndex.some_of_hang (SameEntry.docUp view _) hget with ⟨hpath, rfl⟩ | ⟨-, h⟩
    · subst hpath
      exact .inr ⟨hfresh, _, hstep, 0, rfl, rfl⟩
    · exact .inl h
  | category hstep _ hfresh lists counter =>
    rcases ViewIndex.some_of_hang (incrementDescendantCount true) hget with
      ⟨hpath, rfl⟩ | ⟨-, h⟩
    · subst hpath
      exact .inr ⟨hfresh, _, hstep, counter, rfl, rfl⟩
    · exact .inl h

/-- A run of such steps. -/
abbrev HangsMany (view : VirtualView) (doc : DocEntry) (steps : List Placement) :
    ViewIndex → ViewIndex → Prop := ReflTransGen (view.Hangs doc steps)

section

variable (h : view.HangsMany doc steps s s')

include h

theorem HangsMany.tree (htree : Tree view.env s) : Tree view.env s' := by
  induction h with
  | refl => exact htree
  | tail _ hstep ih => exact hstep.tree ih

theorem HangsMany.of_some (hget : s.entries.get? path = some e) :
    ∃ e', s'.entries.get? path = some e' ∧ SameEntry e e' := by
  induction h with
  | refl => exact ⟨e, hget, refl e⟩
  | tail _ hstep ih =>
    obtain ⟨e₁, he₁, hsame⟩ := ih
    obtain ⟨e₂, he₂, hsame'⟩ := hstep.of_some he₁
    exact ⟨e₂, he₂, hsame.trans hsame'⟩

theorem HangsMany.some_of (hget : s'.entries.get? path = some e') :
    (∃ e, s.entries.get? path = some e ∧ SameEntry e e') ∨
      s.entries.get? path = none ∧ ∃ step ∈ steps, ∃ counter, path = step.path view doc
        ∧ SameEntry (step.madeEntry view doc counter) e' := by
  induction h generalizing e' with
  | refl => exact .inl ⟨e', hget, refl e'⟩
  | tail hmany hstep ih =>
    rcases hstep.some_of hget with ⟨e₁, he₁, hsame⟩ | ⟨hnone, step, hmem, counter, hpath, rfl⟩
    · rcases ih he₁ with ⟨e, he, hsame'⟩ | ⟨hnone, step, hstep, counter, hpath, hsame'⟩
      · exact .inl ⟨e, he, hsame'.trans hsame⟩
      · exact .inr ⟨hnone, step, hstep, counter, hpath, hsame'.trans hsame⟩
    · refine .inr ⟨?_, step, hmem, counter, hpath, refl _⟩
      refine eq_none_iff_forall_ne_some.mpr fun e hbefore => ?_
      obtain ⟨e₁, he₁, -⟩ := HangsMany.of_some hmany hbefore
      exact nomatch hnone.symm.trans he₁

theorem HangsMany.hasCategory (hcat : s.HasCategory path) : s'.HasCategory path := by
  obtain ⟨e, he, hec⟩ := hcat
  obtain ⟨e', he', hsame⟩ := h.of_some he
  exact ⟨e', he', hsame.isCategory.trans hec⟩

end

/-- **Carrying out a step** below a category changes the tree by at most one entry, and its path is
filled afterwards. -/
theorem place_spec (doc : DocEntry) {step : Placement} (hstep : step ∈ steps)
    (hparent : match step with
      | .category _ _ _ _ parent => s.HasCategory parent
      | .document parent => s.HasCategory parent) :
    view.HangsMany doc steps s (view.place doc s step)
      ∧ ∃ e, (view.place doc s step).entries.get? (step.path view doc) = some e := by
  cases step with
  | document parent =>
    rw [place_document]
    split
    · rename_i hhas
      exact ⟨ReflTransGen.refl, has_iff.mp hhas⟩
    · rename_i hfresh
      rw [Bool.not_eq_true, has_eq_false_iff] at hfresh
      exact ⟨ReflTransGen.single (.document hstep hparent hfresh), _,
        ViewIndex.hang_new⟩
  | category itemName value descending indentLevel parent =>
    rw [place_category]
    split
    · rename_i hhas
      exact ⟨ReflTransGen.refl, has_iff.mp hhas⟩
    · rename_i hfresh
      rw [Bool.not_eq_true, has_eq_false_iff] at hfresh
      exact ⟨ReflTransGen.single (.category hstep hparent hfresh _ _ rfl), _,
        ViewIndex.hang_new⟩

variable {parent : EntryPath}

theorem place_category_hasCategory (doc : DocEntry) (htree : Tree view.env s) {itemName : JSString}
    {value : ColumnValue} {descending : Bool} {indentLevel : ℕ}
    (hstep : .category itemName value descending indentLevel parent ∈ steps)
    (hparent : s.HasCategory parent) :
    (view.place doc s (.category itemName value descending indentLevel parent)).HasCategory
      (view.categoryPath value parent) := by
  obtain ⟨hmany, e, he⟩ := place_spec doc hstep hparent
  exact ⟨e, he, (hmany.tree htree).isCategory_eq he⟩

theorem foldl_partsScript_spec (doc : DocEntry) (column : VirtualViewColumn)
    (nextDescending : Bool) {parts : List JSString} {indentLevel : ℕ}
    (htree : Tree view.env s) (hparent : s.HasCategory parent)
    (hsub : view.partsScript column nextDescending parts indentLevel parent ⊆ steps) :
    let s' := (view.partsScript column nextDescending parts indentLevel parent).foldl
      (view.place doc) s
    view.HangsMany doc steps s s' ∧ s'.HasCategory (view.partsPath parts parent) := by
  induction parts generalizing indentLevel parent s with
  | nil => exact ⟨ReflTransGen.refl, hparent⟩
  | cons part parts ih =>
    rw [partsScript] at hsub ⊢
    obtain ⟨hstep, hrest⟩ := cons_subset.mp hsub
    obtain ⟨hfirst, -⟩ := place_spec doc hstep hparent
    obtain ⟨hmany, hcat⟩ := ih (hfirst.tree htree)
      (place_category_hasCategory doc htree hstep hparent) hrest
    exact ⟨hfirst.trans hmany, hcat⟩

theorem foldl_valueScript_spec (doc : DocEntry) (column : VirtualViewColumn)
    (nextDescending : Bool) (value : ColumnValue) {parent : EntryPath} {s : ViewIndex}
    (htree : Tree view.env s) (hparent : s.HasCategory parent)
    (hsub : view.valueScript column nextDescending value parent ⊆ steps) :
    let s' := (view.valueScript column nextDescending value parent).foldl (view.place doc) s
    view.HangsMany doc steps s s' ∧ s'.HasCategory (view.valuePath value parent) := by
  have hsimple : [Placement.category column.name value nextDescending 0 parent] ⊆ steps →
      view.HangsMany doc steps s
          ([Placement.category column.name value nextDescending 0 parent].foldl (view.place doc) s)
        ∧ ([Placement.category column.name value nextDescending 0 parent].foldl
            (view.place doc) s).HasCategory (view.categoryPath value parent) := by
    intro h
    have hstep := h mem_cons_self
    exact ⟨(place_spec doc hstep hparent).1, place_category_hasCategory doc htree hstep hparent⟩
  cases value with
  | string text =>
    simp only [valueScript, valuePath] at hsub ⊢
    split
    · rename_i hslash
      rw [if_pos hslash] at hsub
      exact foldl_partsScript_spec doc column nextDescending htree hparent hsub
    · rename_i hslash
      rw [if_neg hslash] at hsub
      exact hsimple hsub
  | _ => exact hsimple hsub

/-- **Carrying out the script of a document** hangs entries up, and the document is at all its
places afterwards. -/
theorem foldl_script_spec (doc : DocEntry) {columns : List VirtualViewColumn}
    (htree : Tree view.env s) (hparent : s.HasCategory parent)
    (hsub : view.script doc columns parent ⊆ steps) :
    let s' := (view.script doc columns parent).foldl (view.place doc) s
    view.HangsMany doc steps s s' ∧ ∀ place ∈ view.places doc columns parent,
      ∃ e, s'.entries.get? ((view.docSortKey doc).toKey view.env :: place) = some e := by
  induction columns generalizing parent s with
  | nil =>
    obtain ⟨hmany, hfilled⟩ := place_spec doc (hsub mem_cons_self) hparent
    refine ⟨hmany, fun place hplace => ?_⟩
    rw [mem_singleton.mp hplace]
    exact hfilled
  | cons column columns ih =>
    rw [script] at hsub ⊢
    rw [places]
    generalize valuesIn doc column = values at hsub ⊢
    induction values generalizing s with
    | nil => exact ⟨ReflTransGen.refl, (by intros; contradiction)⟩
    | cons value values ihv =>
      rw [flatMap_cons] at hsub ⊢
      rw [flatMap_cons]
      obtain ⟨hhere, hlater⟩ := append_subset.mp hsub
      obtain ⟨henter, hbelow⟩ := append_subset.mp hhere
      obtain ⟨hmany₁, hcat⟩ := foldl_valueScript_spec doc column _ value htree hparent henter
      obtain ⟨hmany₂, hfilled⟩ := ih (hmany₁.tree htree) hcat hbelow
      have hboth := hmany₁.trans hmany₂
      obtain ⟨hmany₃, hfilled'⟩ := ihv (HangsMany.tree hboth htree)
        (HangsMany.hasCategory hboth hparent) hlater
      simp only [foldl_append] at hmany₃ hfilled' ⊢
      refine ⟨hboth.trans hmany₃, fun place hplace => ?_⟩
      rcases mem_append.mp hplace with hplace | hplace
      · obtain ⟨e, he⟩ := hfilled place hplace
        obtain ⟨e', he', -⟩ := hmany₃.of_some he
        exact ⟨e', he'⟩
      · exact hfilled' place hplace

/-! ## Taking documents out -/

variable (view) in
/-- **Taking an occurrence of a document out.** -/
inductive Unhangs (occurrences : List Occurrence) : ViewIndex → ViewIndex → Prop
  | mk {s : ViewIndex} {o : Occurrence} {key : EntryKey} {parent : EntryPath}
      {entry : VirtualViewEntryData} (ho : o ∈ occurrences) (hdoc : o.isCategory = false)
      (horigin : o.origin ≠ ORIGIN_VIRTUALVIEW) (hpath : o.path = key :: parent)
      (hget : s.entries.get? (key :: parent) = some entry) :
      Unhangs occurrences s (s.unhang view.env entry (view.docDown o.columnValues) key parent)

/-- The paths that a list of occurrences takes out. -/
def takenPaths (occurrences : List Occurrence) : List EntryPath :=
  (occurrences.filter fun o => !o.isCategory && o.origin ≠ ORIGIN_VIRTUALVIEW).map (·.path)

/-- The occurrences of documents are listed with the path of a document. -/
def Listed (occurrences : List Occurrence) : Prop :=
  ∀ o ∈ occurrences, o.isCategory = false → ∃ key parent, o.path = key :: parent
    ∧ key.isCategory = false

theorem mem_takenPaths {occurrences : List Occurrence} :
    path ∈ takenPaths occurrences ↔ ∃ o ∈ occurrences, o.isCategory = false
      ∧ o.origin ≠ ORIGIN_VIRTUALVIEW ∧ o.path = path := by
  simp [takenPaths, and_assoc]

theorem Unhangs.tree {occurrences : List Occurrence} (hlisted : Listed occurrences)
    (h : view.Unhangs occurrences s s') (htree : Tree view.env s) :
    Tree view.env s' := by
  obtain ⟨ho, hdoc, -, hpath, hget⟩ := h
  obtain ⟨key', parent', hpath', hkey⟩ := hlisted _ ho hdoc
  obtain ⟨rfl, rfl⟩ := List.cons.inj (hpath.symm.trans hpath')
  exact htree.unhang (SameEntry.docDown view _) fun k =>
    htree.leaf_of_document hget ((htree.isCategory_eq hget).trans hkey) k

variable (view) in
/-- **What is left after some occurrences have been taken out** of a tree: the other entries as
they were, and the list of parents that lost one. -/
structure Removed (allowed occurrences : List Occurrence) (s : ViewIndex)
    (toCheck : List EntryPath) (r : ViewIndex × List EntryPath) : Prop where
  steps : ReflTransGen (view.Unhangs allowed) s r.1
  tree : Tree view.env r.1
  some_of : ∀ {path e'}, r.1.entries.get? path = some e' →
    path ∉ takenPaths occurrences ∧ ∃ e, s.entries.get? path = some e ∧ SameEntry e e'
  of_some : ∀ {path e}, s.entries.get? path = some e → path ∉ takenPaths occurrences →
    ∃ e', r.1.entries.get? path = some e' ∧ SameEntry e e'
  check : ∀ path, path ∈ r.2 ↔ path ∈ toCheck ∨
    ∃ key, key :: path ∈ takenPaths occurrences ∧ s.entries.has (key :: path) = true

theorem removeOccurrence_spec (hlisted : Listed allowed)
    {o : Occurrence} (ho : o ∈ allowed) (toCheck : List EntryPath) (htree : Tree view.env s) :
    view.Removed allowed [o] s toCheck (view.removeOccurrence (s, toCheck) o) := by
  by_cases hkept : o.isCategory = true ∨ o.origin = ORIGIN_VIRTUALVIEW
  · have hnone : takenPaths [o] = [] := by
      rcases hkept with h | h <;> simp [takenPaths, h]
    rw [removeOccurrence_of_kept _ hkept]
    exact ⟨ReflTransGen.refl, htree, fun h => ⟨by simp [hnone], _, h, refl _⟩,
      fun h _ => ⟨_, h, refl _⟩, by simp [hnone]⟩
  · obtain ⟨hdoc, horigin⟩ := not_or.mp hkept
    rw [Bool.not_eq_true] at hdoc
    obtain ⟨key, parent, hpath, hkey⟩ := hlisted o ho hdoc
    have htaken : takenPaths [o] = [key :: parent] := by
      simp [takenPaths, hdoc, horigin, hpath]
    rw [removeOccurrence_eq s toCheck hdoc horigin hpath]
    cases hget : s.entries.get? (key :: parent) with
    | none =>
      refine ⟨ReflTransGen.refl, htree, fun {path e'} h => ⟨?_, _, h, refl _⟩,
        fun h _ => ⟨_, h, refl _⟩, fun path => ?_⟩
      · rw [htaken, mem_singleton]
        rintro rfl
        cases hget.symm.trans h
      · simp only [htaken, mem_singleton, List.cons.injEq]
        refine ⟨.inl, fun h => h.resolve_right ?_⟩
        rintro ⟨k, ⟨rfl, rfl⟩, hhas⟩
        exact absurd hhas (by simp [hget])
    | some entry =>
      have hstep : view.Unhangs allowed s
          (s.unhang view.env entry (view.docDown o.columnValues) key parent) :=
        .mk ho hdoc horigin hpath hget
      have hcat : ((s.unhang view.env entry (view.docDown o.columnValues) key parent).entries.get?
          parent).any (·.isCategory) = true := by
        obtain ⟨e, he, hec⟩ := htree.parent hget
        have hup := SameEntry.docDown view o.columnValues
        obtain ⟨e', he', hsame⟩ : ∃ e', (s.unhang view.env entry (view.docDown o.columnValues) key
            parent).entries.get? parent = some e' ∧ SameEntry e e' :=
          ViewIndex.unhang_of_some hup (by simp) he
        rw [he', any_some, hsame.isCategory, hec]
      refine ⟨ReflTransGen.single hstep, hstep.tree hlisted htree, fun h => ?_,
        fun h hnot => ?_, fun path => ?_⟩
      · rw [htaken, mem_singleton]
        exact ViewIndex.some_of_unhang (SameEntry.docDown view _) h
      · rw [htaken, mem_singleton] at hnot
        exact ViewIndex.unhang_of_some (SameEntry.docDown view _) hnot h
      · simp only [hcat, if_true, htaken, mem_append, mem_singleton, List.cons.injEq]
        constructor
        · rintro (h | rfl)
          · exact .inl h
          · exact .inr ⟨key, ⟨rfl, rfl⟩, has_iff.mpr ⟨_, hget⟩⟩
        · rintro (h | ⟨k, ⟨-, rfl⟩, -⟩)
          · exact .inl h
          · exact .inr rfl

theorem takenPaths_append (l l' : List Occurrence) :
    takenPaths (l ++ l') = takenPaths l ++ takenPaths l' := by
  simp [takenPaths]

/-- Taking out some and then others is taking out both. -/
theorem Removed.append {l l' : List Occurrence} {toCheck : List EntryPath}
    {r r' : ViewIndex × List EntryPath} (h : view.Removed allowed l s toCheck r)
    (h' : view.Removed allowed l' r.1 r.2 r') : view.Removed allowed (l ++ l') s toCheck r' where
  steps := h.steps.trans h'.steps
  tree := h'.tree
  some_of hget := by
    obtain ⟨hnot', e₁, he₁, hsame'⟩ := h'.some_of hget
    obtain ⟨hnot, e, he, hsame⟩ := h.some_of he₁
    rw [takenPaths_append, mem_append]
    exact ⟨fun hmem => hmem.elim hnot hnot', e, he, hsame.trans hsame'⟩
  of_some hget hnot := by
    rw [takenPaths_append, mem_append, not_or] at hnot
    obtain ⟨e₁, he₁, hsame⟩ := h.of_some hget hnot.1
    obtain ⟨e₂, he₂, hsame'⟩ := h'.of_some he₁ hnot.2
    exact ⟨e₂, he₂, hsame.trans hsame'⟩
  check path := by
    rw [h'.check, h.check]
    simp only [takenPaths_append, mem_append]
    constructor
    · rintro ((h₁ | ⟨k, hk, hhas⟩) | ⟨k, hk, hhas⟩)
      · exact .inl h₁
      · exact .inr ⟨k, .inl hk, hhas⟩
      · obtain ⟨e₁, he₁⟩ := has_iff.mp hhas
        obtain ⟨-, e, he, -⟩ := h.some_of he₁
        exact .inr ⟨k, .inr hk, has_iff.mpr ⟨e, he⟩⟩
    · rintro (h₁ | ⟨k, hk, hhas⟩)
      · exact .inl (.inl h₁)
      · by_cases hfirst : k :: path ∈ takenPaths l
        · exact .inl (.inr ⟨k, hfirst, hhas⟩)
        · obtain ⟨e, he⟩ := has_iff.mp hhas
          obtain ⟨e₁, he₁, -⟩ := h.of_some he hfirst
          exact .inr ⟨k, hk.resolve_left hfirst, has_iff.mpr ⟨e₁, he₁⟩⟩

/-- **Taking out a list of occurrences.** -/
theorem foldl_removeOccurrence_spec (hlisted : Listed allowed)
    {l : List Occurrence} (hl : l ⊆ allowed) (toCheck : List EntryPath) (htree : Tree view.env s) :
    view.Removed allowed l s toCheck (l.foldl view.removeOccurrence (s, toCheck)) := by
  induction l generalizing s toCheck with
  | nil =>
    exact ⟨ReflTransGen.refl, htree, fun h => ⟨by simp [takenPaths], _, h, refl _⟩,
      fun h _ => ⟨_, h, refl _⟩, by simp [takenPaths]⟩
  | cons o l ih =>
    obtain ⟨ho, hl'⟩ := cons_subset.mp hl
    have hfirst := removeOccurrence_spec hlisted ho toCheck htree
    rw [foldl_cons]
    exact hfirst.append (ih hl' (view.removeOccurrence (s, toCheck) o).2 hfirst.tree)

end VirtualView

end MindooDB
