import MindooDB.View.Runs

/-!
# View/Collapse — when the counts are right

`applyChanges` counts every child and every descendant, and leaves no category empty.  The one thing
it does not tell the entries above is that an empty category was dropped, so the counts are right
all along a run exactly when no batch of it drops a category (`wellCounted_run_iff`).
-/

namespace MindooDB

open List

/-- **All six counts are those of the tree**, and no category but the root is empty. -/
structure WellCounted (s : ViewIndex) : Prop where
  childCount : ∀ p e, s.entries.get? p = some e →
    e.childCount = s.childrenOf true p + s.childrenOf false p
  childCategoryCount : ∀ p e, s.entries.get? p = some e →
    e.childCategoryCount = s.childrenOf true p
  childDocumentCount : ∀ p e, s.entries.get? p = some e →
    e.childDocumentCount = s.childrenOf false p
  descendantCount : ∀ p e, s.entries.get? p = some e →
    e.descendantCount = s.descendantsOf true p + s.descendantsOf false p
  descendantCategoryCount : ∀ p e, s.entries.get? p = some e →
    e.descendantCategoryCount = s.descendantsOf true p
  descendantDocumentCount : ∀ p e, s.entries.get? p = some e →
    e.descendantDocumentCount = s.descendantsOf false p
  nonempty : ∀ p e, s.entries.get? p = some e → p ≠ [] → e.isCategory = true →
    0 < s.childrenOf true p + s.childrenOf false p

/-- In a settled view, only the counts of entries and categories below may be wrong. -/
theorem Settled.wellCounted_iff {env : Runtime} {s : ViewIndex} (h : Settled env s) :
    WellCounted s ↔ HasDeepCounts s := by
  constructor
  · intro hw p e hget
    exact ⟨hw.descendantCategoryCount p e hget, hw.descendantCount p e hget⟩
  · intro hdeep
    refine ⟨fun p e hget => (h.counts p e hget).childCount,
      fun p e hget => (h.counts p e hget).childCategoryCount,
      fun p e hget => (h.counts p e hget).childDocumentCount,
      fun p e hget => (hdeep p e hget).descendantCount,
      fun p e hget => (hdeep p e hget).descendantCategoryCount,
      fun p e hget => (h.counts p e hget).descendantDocumentCount, ?_⟩
    intro p e hget hp hcat
    obtain ⟨key, q, rfl⟩ := exists_cons_of_ne_nil hp
    obtain ⟨k, child, hchild⟩ := h.filled key q e hget hcat not_mem_nil
    have hne : e.childCount ≠ 0 := fun hzero =>
      absurd ((VirtualView.childCount_eq_zero_iff h.counts hget).mp hzero k) (by simp [hchild])
    rw [(h.counts _ _ hget).childCount] at hne
    have hcategories := s.tally_nonneg (P := ViewIndex.IsChild (key :: q)) true
    have hdocuments := s.tally_nonneg (P := ViewIndex.IsChild (key :: q)) false
    rw [ViewIndex.childrenOf, ViewIndex.childrenOf] at hne ⊢
    omega

namespace VirtualView

variable (view : VirtualView)

/-- **A batch empties a category**: it takes every child of it out and adds nothing below it. -/
def Collapses (s : ViewIndex) (change : VirtualViewDataChange) : Prop :=
  ∃ key p e, s.entries.get? (key :: p) = some e ∧ e.isCategory = true
    ∧ (∀ k child, s.entries.get? (k :: key :: p) = some child →
        k :: key :: p ∈ takenPaths (occurrencesToRemove change s))
    ∧ ∀ doc ∈ view.acceptedDocs change, ∀ place ∈ view.docPlaces doc, ¬key :: p <:+ place

variable {view} {s s' : ViewIndex} {change : VirtualViewDataChange}

/-- The view after the additions. -/
abbrev afterAdditions (view : VirtualView) (change : VirtualViewDataChange) (s : ViewIndex) :
    ViewIndex := view.applyAdditions change (view.applyRemovals change s).1

/-- What the additions leave empty, the batch has emptied. -/
theorem collapses_of_leaf (h : Settled view.env s) {key : EntryKey} {p : EntryPath}
    {e' : VirtualViewEntryData}
    (hget : (view.afterAdditions change s).entries.get? (key :: p) = some e')
    (hcat : e'.isCategory = true)
    (hleaf : ∀ k, (view.afterAdditions change s).entries.get? (k :: key :: p) = none) :
    view.Collapses s change := by
  have hremoved := removedBy_applyRemovals change h
  have htaken := removed_takenOut change h
  have hadded := added_applyAdditions change h
  have hnone : ∀ k child, (view.afterAdditions change s).entries.get? (k :: key :: p) ≠ some child :=
    fun k child heq => nomatch (hleaf k).symm.trans heq
  have hplaces : ∀ doc ∈ view.acceptedDocs change, ∀ place ∈ view.docPlaces doc,
      ¬key :: p <:+ place := by
    intro doc hdoc place hplace hsuffix
    obtain ⟨e, he⟩ := hadded.placed doc hdoc place hplace
    obtain ⟨k, child, hchild⟩ := hadded.tree.exists_child_of_suffix he hsuffix
    exact hnone k child hchild
  rcases hadded.some_of hget with ⟨e₁, he₁, hsame₁⟩ |
    ⟨-, doc, hdoc, step, hstep, counter, hpath, hsame₁⟩
  · rw [hremoved.entries] at he₁
    obtain ⟨-, e, he, hsame⟩ := htaken.some_of he₁
    refine ⟨key, p, e, he, ?_, fun k child hchild => ?_, hplaces⟩
    · rw [← hsame.isCategory, ← hsame₁.isCategory]
      exact hcat
    · by_contra hkept
      obtain ⟨child₁, hchild₁, -⟩ := htaken.of_some hchild hkept
      rw [← hremoved.entries] at hchild₁
      obtain ⟨child₂, hchild₂, -⟩ := hadded.of_some hchild₁
      exact hnone k child₂ hchild₂
  · obtain ⟨place, hplace, hlies⟩ := exists_place_of_mem_script hstep
    cases step with
    | document parent => exact nomatch hsame₁.isCategory.symm.trans hcat
    | category itemName value descending indentLevel parent =>
      exact absurd (hpath ▸ hlies : key :: p <:+ place) (hplaces doc hdoc place hplace)

/-- What a batch empties is empty after the additions. -/
theorem exists_leaf_of_collapses (h : Settled view.env s) (hcollapse : view.Collapses s change) :
    ∃ key p e, (view.afterAdditions change s).entries.get? (key :: p) = some e
      ∧ e.isCategory = true
      ∧ ∀ k, (view.afterAdditions change s).entries.get? (k :: key :: p) = none := by
  obtain ⟨key, p, e, hget, hcat, htakenAll, hplaces⟩ := hcollapse
  have hremoved := removedBy_applyRemovals change h
  have htaken := removed_takenOut change h
  have hadded := added_applyAdditions change h
  -- a category is not among the entries taken out
  have hkept : key :: p ∉ takenPaths (occurrencesToRemove change s) := by
    intro hmem
    obtain ⟨o, ho, hdoc, -, hpath⟩ := mem_takenPaths.mp hmem
    obtain ⟨key', p', hpath', hkey⟩ := h.lists.listed change o ho hdoc
    obtain ⟨rfl, rfl⟩ := List.cons.inj (hpath.symm.trans hpath')
    exact absurd ((h.tree.isCategory_eq hget).symm.trans hcat) (by simp [hkey])
  obtain ⟨e₁, he₁, hsame₁⟩ := htaken.of_some hget hkept
  rw [← hremoved.entries] at he₁
  obtain ⟨e₂, he₂, hsame₂⟩ := hadded.of_some he₁
  refine ⟨key, p, e₂, he₂, ?_, fun k => Option.eq_none_iff_forall_ne_some.mpr fun child hchild => ?_⟩
  · rw [hsame₂.isCategory, hsame₁.isCategory]
    exact hcat
  · rcases hadded.some_of hchild with ⟨c₁, hc₁, -⟩ | ⟨-, doc, hdoc, step, hstep, counter, hpath, -⟩
    · rw [hremoved.entries] at hc₁
      obtain ⟨hnot, c, hc, -⟩ := htaken.some_of hc₁
      exact hnot (htakenAll k c hc)
    · obtain ⟨place, hplace, hlies⟩ := exists_place_of_mem_script hstep
      refine hplaces doc hdoc place hplace ?_
      cases step with
      | document parent =>
        obtain rfl : parent = place := hlies
        obtain ⟨-, hpath⟩ := List.cons.inj hpath
        exact hpath ▸ suffix_rfl
      | category itemName value descending indentLevel parent =>
        exact (suffix_cons k _).trans (hpath ▸ hlies : k :: key :: p <:+ place)

/-- Where nothing to be checked is empty, the cleanup does nothing. -/
theorem foldl_checkCategory_eq_self (toCheck : List EntryPath)
    (hnone : ∀ key p e, key :: p ∈ toCheck → s.entries.get? (key :: p) = some e →
      e.childCount ≠ 0) : toCheck.foldl view.checkCategory s = s := by
  induction toCheck with
  | nil => rfl
  | cons path toCheck ih =>
    rw [foldl_cons]
    have hself : view.checkCategory s path = s := by
      rw [checkCategory]
      split
      · rename_i hany
        obtain ⟨e, he, hzero⟩ := (Option.any_eq_true _ _).mp hany
        cases path with
        | nil => rfl
        | cons key p =>
          exact absurd (decide_eq_true_eq.mp hzero) (hnone key p e mem_cons_self he)
      · rfl
    rw [hself]
    exact ih fun key p e hmem => hnone key p e (mem_cons_of_mem _ hmem)

theorem beforeFlush_eq_of_not_collapses (h : Settled view.env s)
    (hnot : ¬view.Collapses s change) :
    view.beforeFlush change s = view.afterAdditions change s := by
  have hremoved := removedBy_applyRemovals change h
  have hadded := added_applyAdditions change h
  refine foldl_checkCategory_eq_self _ fun key p e hmem hget hzero => hnot ?_
  have hcat := (hadded.tree.isCategory_eq hget).trans (hremoved.categories key p hmem)
  exact collapses_of_leaf h hget hcat
    (leaf_of_childCount_eq_zero (hadded.counts hremoved.counts) hget hzero)

/-- Dropping a category leaves the root's count of categories as it is. -/
theorem Drops.root (h : view.Drops s s') {e : VirtualViewEntryData}
    (hget : s.entries.get? [] = some e) :
    (∃ e', s'.entries.get? [] = some e'
      ∧ e'.descendantCategoryCount = e.descendantCategoryCount)
      ∧ s'.descendantsOf true [] = s.descendantsOf true [] - 1 := by
  obtain ⟨hentry, hcat, -⟩ := h
  rename_i key parent entry
  constructor
  · have hroot := ViewIndex.get?_unhang view.env s entry id key parent []
    rw [if_neg (by simp), hget, Option.map_some] at hroot
    refine ⟨_, hroot, ?_⟩
    split <;> split <;> rfl
  · have hshift : Shifts entry.isCategory (-1) parent s (s.unhang view.env entry id key parent) :=
      shifts_unhang hentry SameEntry.refl
    have hone := hshift.descendants true []
    rw [if_pos ⟨nil_suffix, hcat⟩] at hone
    exact hone

theorem dropsMany_root (h : Relation.ReflTransGen view.Drops s s') {e : VirtualViewEntryData}
    (hget : s.entries.get? [] = some e) :
    (∃ e', s'.entries.get? [] = some e'
      ∧ e'.descendantCategoryCount = e.descendantCategoryCount)
      ∧ (s' = s ∨ s'.descendantsOf true [] < s.descendantsOf true []) := by
  induction h with
  | refl => exact ⟨⟨e, hget, rfl⟩, .inl rfl⟩
  | tail _ hdrop ih =>
    obtain ⟨⟨e₁, he₁, hcount₁⟩, hless⟩ := ih
    obtain ⟨⟨e₂, he₂, hcount₂⟩, hone⟩ := hdrop.root he₁
    refine ⟨⟨e₂, he₂, hcount₂.trans hcount₁⟩, .inr ?_⟩
    rcases hless with rfl | hless <;> omega

/-- A batch that empties a category leaves the root a count too high. -/
theorem not_hasDeepCounts_of_collapses (h : Settled view.env s) (hdeep : HasDeepCounts s)
    (hcollapse : view.Collapses s change) : ¬HasDeepCounts (view.beforeFlush change s) := by
  intro hafter
  have hadded := added_applyAdditions change h
  have hdropped := dropped_beforeFlush change h
  have hbefore := hadded.deepCounts ((removedBy_applyRemovals change h).deepCounts hdeep)
  obtain ⟨e, he, -⟩ := hadded.tree.root
  obtain ⟨⟨e', he', hcount⟩, hless⟩ := dropsMany_root hdropped.steps he
  rcases hless with hsame | hless
  · obtain ⟨key, p, leaf, hleaf, hcat, hnone⟩ := exists_leaf_of_collapses h hcollapse
    obtain ⟨k, child, hchild⟩ := hdropped.filled key p leaf (hsame ▸ hleaf) hcat not_mem_nil
    exact absurd ((hnone k).symm.trans (hsame ▸ hchild)) (by simp)
  · have h₁ := (hbefore [] e he).descendantCategoryCount
    have h₂ := (hafter [] e' he').descendantCategoryCount
    omega

theorem hasDeepCounts_renumbers_iff {env : Runtime} (h : Relation.ReflTransGen Renumbers s s')
    (htree : Tree env s) : HasDeepCounts s' ↔ HasDeepCounts s := by
  refine ⟨fun hdeep p e hget => ?_, (renumbersMany_spec h htree).2.2.2⟩
  obtain ⟨e', he', hsame⟩ := (renumbersMany_some h).2 hget
  have hcounts := hdeep p e' he'
  have htally : ∀ kind, s'.descendantsOf kind p = s.descendantsOf kind p := by
    intro kind
    clear hdeep hget he' hcounts
    induction h with
    | refl => rfl
    | tail _ hstep ih => exact (hstep.tally_eq _ kind).trans ih
  obtain ⟨_, _, _, _, rfl⟩ := hsame
  refine ⟨?_, ?_⟩
  · rw [← htally]
    exact hcounts.descendantCategoryCount
  · rw [← htally, ← htally]
    exact hcounts.descendantCount

/-- **After one batch the counts are right** exactly when it empties no category. -/
theorem hasDeepCounts_applyChanges_iff (h : Settled view.env s) (hdeep : HasDeepCounts s) :
    HasDeepCounts (view.applyChanges s change) ↔ ¬view.Collapses s change := by
  rw [applyChanges_eq, hasDeepCounts_renumbers_iff
    (renumbers_processPendingSiblingIndexUpdates view _) (settled_beforeFlush change h).tree]
  refine ⟨fun hafter hcollapse => not_hasDeepCounts_of_collapses h hdeep hcollapse hafter,
    fun hnot => ?_⟩
  rw [beforeFlush_eq_of_not_collapses h hnot]
  exact (added_applyAdditions change h).deepCounts
    ((removedBy_applyRemovals change h).deepCounts hdeep)

end VirtualView

open VirtualView

variable (view : VirtualView)

/-- **The counts are right after every batch of a run** exactly when none of its batches empties a
category. -/
theorem wellCounted_run_iff (changes : List VirtualViewDataChange) :
    (∀ before, before <+: changes → WellCounted (view.run before))
      ↔ ∀ before change, before ++ [change] <+: changes →
          ¬view.Collapses (view.run before) change := by
  induction changes using List.reverseRecOn with
  | nil =>
    refine ⟨fun _ before change h => absurd h (by simp), fun _ before h => ?_⟩
    rw [prefix_nil.mp h, (settled_run []).wellCounted_iff]
    exact fun p e hget => (counts_initial hget).2
  | append_singleton changes change ih =>
    rw [forall_prefix_concat, ih, forall_step_concat]
    refine and_congr_right fun hbefore => ?_
    have hdeep := (settled_run changes).wellCounted_iff.mp
      (ih.mpr hbefore changes prefix_rfl)
    rw [run_concat, (settled_applyChanges change (settled_run changes)).wellCounted_iff,
      hasDeepCounts_applyChanges_iff (settled_run changes) hdeep]

/-- A document comes and goes. -/
def comeAndGo : List VirtualViewDataChange :=
  [{ origin := "o"
     additions := (∅ : LinkedMap JSString EntryData).set "d"
      ⟨(∅ : ColumnValues).set "kind" (.string "a"), none⟩ },
    { origin := "o", removals := LinkedSet.ofList ["d"] }]

/-- The root still counts the category that was dropped. -/
theorem not_wellCounted_comeAndGo : ¬WellCounted (byKind.run comeAndGo) := by
  intro h
  have hroot : ((byKind.run comeAndGo).entries.get? []).map (·.descendantCount) = some 1 := by
    decide
  have hnone : (byKind.run comeAndGo).descendantsOf true [] = 0
      ∧ (byKind.run comeAndGo).descendantsOf false [] = 0 := by
    decide
  obtain ⟨e, he, hone⟩ := Option.map_eq_some_iff.mp hroot
  have hcount := h.descendantCount [] e he
  omega

end MindooDB
