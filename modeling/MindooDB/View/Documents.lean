import MindooDB.View.Runs

/-!
# View/Documents — the documents of a view and how they are listed

`scopedDocIdKey` joins an origin and a document id with a colon and `parseScopedDocIdKey` cuts at the
first one, so what comes back is the origin up to *its* first colon.

Nothing is ever told to a document, so its entry stays as it was made but for its number
(`renumbered_of_kept`).  And a document of the tree is listed under its key, with the key id it was
made with, unless its origin is the view's own (`Lists`, `lists_run`): this is what lets a removal
find it.
-/

namespace MindooDB

open JSString

/-- The code unit of a colon. -/
abbrev colon : Fin 65536 := Fin.ofNat 65536 ':'.toNat

/-- A string up to its first colon. -/
def beforeColon (s : JSString) : JSString := ⟨s.units.takeWhile fun u => !decide (u = colon)⟩

theorem not_colon_of_notMem {units : List (Fin 65536)} (h : colon ∉ units) :
    ∀ u ∈ units, (!decide (u = colon)) = true := by
  intro u hu
  have hne : u ≠ colon := fun heq => h (heq ▸ hu)
  simpa using hne

theorem units_scopedDocIdKey (origin docId : JSString) :
    (scopedDocIdKey origin docId).units = origin.units ++ colon :: docId.units := by
  change (origin.units ++ [colon]) ++ docId.units = _
  rw [List.append_assoc]
  rfl

/-- **Cutting a joined key** gives the origin up to its first colon. -/
theorem parseScopedDocIdKey_scopedDocIdKey (origin docId : JSString) :
    ∃ rest, parseScopedDocIdKey (scopedDocIdKey origin docId) = some (beforeColon origin, rest) := by
  have hany : (scopedDocIdKey origin docId).units.any (fun u => decide (u = colon)) = true := by
    rw [units_scopedDocIdKey]
    simp
  have hcut : (⟨(scopedDocIdKey origin docId).units.takeWhile fun u => !decide (u = colon)⟩
      : JSString) = beforeColon origin := by
    refine units_injective ?_
    rw [beforeColon, units_scopedDocIdKey, List.takeWhile_append]
    split
    · rename_i hlength
      rw [(List.takeWhile_prefix _).eq_of_length hlength]
      simp
    · rfl
  refine ⟨⟨((scopedDocIdKey origin docId).units.dropWhile fun u => !decide (u = colon)).drop 1⟩, ?_⟩
  rw [parseScopedDocIdKey, ← hcut]
  exact if_pos hany

/-- What a key is cut into joins to the key again. -/
theorem scopedDocIdKey_of_parse {key origin docId : JSString}
    (h : parseScopedDocIdKey key = some (origin, docId)) : scopedDocIdKey origin docId = key := by
  rw [parseScopedDocIdKey] at h
  change (if key.units.any (fun u => decide (u = colon)) = true then _ else _) = _ at h
  split at h
  · rename_i hany
    obtain ⟨rfl, rfl⟩ := Prod.mk.inj (Option.some.inj h)
    refine units_injective ?_
    rw [units_scopedDocIdKey]
    -- what is left starts with the colon
    obtain ⟨u, hu, hcolon⟩ := List.any_eq_true.mp hany
    have hne : key.units.dropWhile (fun u => !decide (u = colon)) ≠ [] := by
      intro hnil
      have hall := List.dropWhile_eq_nil_iff.mp hnil u hu
      simp [decide_eq_true_eq.mp hcolon] at hall
    have hhead := List.dropWhile_get_zero_not (fun u => !decide (u = colon)) key.units
      (List.length_pos_of_ne_nil hne)
    obtain ⟨v, rest, hv⟩ := List.exists_cons_of_ne_nil hne
    simp only [hv, List.get_eq_getElem, List.getElem_cons_zero] at hhead
    have hvc : v = colon := by simpa using hhead
    have hsplit := List.takeWhile_append_dropWhile (p := fun u => !decide (u = colon))
      (l := key.units)
    rw [hv, hvc] at hsplit
    rw [hv]
    exact hsplit
  · exact nomatch h

/-! ## The keys of categories -/

/-- The key under which a category is listed. -/
def IsCategoryKey (key : JSString) : Prop :=
  ∃ n, key = scopedDocIdKey ORIGIN_VIRTUALVIEW (("cat_" : JSString) ++ ofNat n)

theorem colon_notMem_ofNat (n : ℕ) : colon ∉ (ofNat n).units := by
  intro h
  obtain ⟨codePoint, hdigit, h⟩ := List.mem_flatMap.mp h
  obtain ⟨c, hc, rfl⟩ := List.mem_map.mp hdigit
  have hd := Nat.isDigit_of_mem_toDigits (by omega) (by omega) hc
  rw [Char.isDigit, Bool.and_eq_true, decide_eq_true_eq, decide_eq_true_eq] at hd
  have hlow : 48 ≤ c.toNat := hd.1
  have hhigh : c.toNat ≤ 57 := hd.2
  have hsmall : c.toNat < 0x10000 := by omega
  rw [encodeUtf16, if_pos hsmall, List.mem_singleton] at h
  have hval := congrArg Fin.val h
  rw [Fin.val_ofNat, Fin.val_ofNat, Nat.mod_eq_of_lt hsmall] at hval
  have h58 : ':'.toNat % 65536 = 58 := by decide
  omega

/-- **No document of another origin is listed under the key of a category.** -/
theorem origin_of_isCategoryKey {origin docId : JSString}
    (h : IsCategoryKey (scopedDocIdKey origin docId)) : origin = ORIGIN_VIRTUALVIEW := by
  obtain ⟨n, hn⟩ := h
  have hunits := congrArg units hn
  rw [units_scopedDocIdKey, units_scopedDocIdKey] at hunits
  have hcat : colon ∉ (("cat_" : JSString) ++ ofNat n).units := by
    change colon ∉ ("cat_" : JSString).units ++ (ofNat n).units
    rw [List.mem_append, not_or]
    exact ⟨by decide, colon_notMem_ofNat n⟩
  have hview : colon ∉ ORIGIN_VIRTUALVIEW.units := by decide
  -- the key has one colon, so the origin has none
  have hcount := congrArg (List.count colon) hunits
  rw [List.count_append, List.count_append, List.count_cons_self, List.count_cons_self,
    List.count_eq_zero.mpr hcat, List.count_eq_zero.mpr hview] at hcount
  have horigin : colon ∉ origin.units := List.count_eq_zero.mp (by omega)
  refine units_injective ?_
  have htake := congrArg (List.takeWhile fun u => !decide (u = colon)) hunits
  rw [List.takeWhile_append_of_pos (not_colon_of_notMem horigin),
    List.takeWhile_append_of_pos (not_colon_of_notMem hview)] at htake
  simpa using htake

end MindooDB

namespace MindooDB

open JSString

variable {env : Runtime} {s s' : ViewIndex}

theorem Tree.hasCategory_above (h : Tree env s) {p q : EntryPath} (hq : s.HasCategory q)
    (hp : p <:+ q) : s.HasCategory p := by
  cases q with
  | nil =>
    rw [List.suffix_nil.mp hp]
    exact hq
  | cons k q =>
    rcases List.suffix_cons_iff.mp hp with rfl | hp
    · exact hq
    · obtain ⟨e, he, -⟩ := hq
      exact h.hasCategory_of_suffix he hp

/-- No document lies on the way down to a category. -/
theorem Tree.not_suffix_of_document (h : Tree env s) {p q : EntryPath} {e : VirtualViewEntryData}
    (hq : s.HasCategory q) (hget : s.entries.get? p = some e) (hdoc : e.isCategory = false) :
    ¬p <:+ q := by
  intro hp
  obtain ⟨e', he', hcat⟩ := h.hasCategory_above hq hp
  obtain rfl := Option.some.inj (hget.symm.trans he')
  exact nomatch hdoc.symm.trans hcat

variable {up : VirtualViewEntryData → VirtualViewEntryData}

/-- Hanging an entry up does not touch a document. -/
theorem Tree.get?_hang_document (h : Tree env s) {child e : VirtualViewEntryData}
    {parent p : EntryPath} (hparent : s.HasCategory parent)
    (hfresh : s.entries.get? (child.sortKey.toKey env :: parent) = none)
    (hget : s.entries.get? p = some e) (hdoc : e.isCategory = false) :
    (s.hang env child up parent).entries.get? p = some e := by
  have hnot := h.not_suffix_of_document hparent hget hdoc
  have hne : p ≠ parent := fun heq => hnot (heq ▸ List.suffix_rfl)
  have hnew : p ≠ child.sortKey.toKey env :: parent := by
    rintro rfl
    exact nomatch hfresh.symm.trans hget
  rw [ViewIndex.get?_hang, if_neg hnew, if_neg hnot, if_neg hne, hget]
  rfl

/-- Taking an entry down does not touch another document. -/
theorem Tree.get?_unhang_document (h : Tree env s) {child e : VirtualViewEntryData}
    {key : EntryKey} {parent p : EntryPath}
    (hparent : s.HasCategory parent) (hother : p ≠ key :: parent)
    (hget : s.entries.get? p = some e) (hdoc : e.isCategory = false) :
    (s.unhang env child up key parent).entries.get? p = some e := by
  have hnot := h.not_suffix_of_document hparent hget hdoc
  have hne : p ≠ parent := fun heq => hnot (heq ▸ List.suffix_rfl)
  rw [ViewIndex.get?_unhang, if_neg hother, if_neg hnot, if_neg hne, hget]
  rfl

namespace VirtualView

variable {view : VirtualView} {change : VirtualViewDataChange} {p : EntryPath}
  {e : VirtualViewEntryData}

variable {doc : DocEntry} {steps : List Placement}

theorem Hangs.document_of_some
    (h : view.Hangs doc steps s s') (htree : Tree view.env s) (hget : s.entries.get? p = some e)
    (hdoc : e.isCategory = false) : s'.entries.get? p = some e := by
  cases h with
  | document _ hparent hfresh => exact htree.get?_hang_document hparent hfresh hget hdoc
  | @category itemName value descending indentLevel parent _ hparent hfresh _ counter =>
    have hfresh' : s.entries.get? ((view.categoryEntryData itemName value descending indentLevel
      counter).sortKey.toKey view.env :: parent) = none := hfresh
    exact htree.get?_hang_document hparent hfresh' hget hdoc

theorem HangsMany.document_of_some (h : view.HangsMany doc steps s s') (htree : Tree view.env s)
    (hget : s.entries.get? p = some e) (hdoc : e.isCategory = false) :
    s'.entries.get? p = some e := by
  induction h with
  | refl => exact hget
  | tail hmany hstep ih => exact hstep.document_of_some (HangsMany.tree hmany htree) ih hdoc

/-- A document is there already, or it is as it is made. -/
theorem HangsMany.document_some_of (h : view.HangsMany doc steps s s') (htree : Tree view.env s)
    (hget : s'.entries.get? p = some e) (hdoc : e.isCategory = false) :
    s.entries.get? p = some e ∨ ∃ place, .document place ∈ steps
      ∧ p = (view.docSortKey doc).toKey view.env :: place ∧ e = view.docEntryData doc := by
  induction h with
  | refl => exact .inl hget
  | tail hmany hstep ih =>
    rcases hstep.some_of hget with ⟨e₁, he₁, hsame⟩ | ⟨-, step, hmem, counter, hpath, rfl⟩
    · have hkept := hstep.document_of_some (HangsMany.tree hmany htree) he₁
        (hsame.isCategory.symm.trans hdoc)
      obtain rfl := Option.some.inj (hget.symm.trans hkept)
      exact ih he₁
    · cases step with
      | document place => exact .inr ⟨place, hmem, hpath, rfl⟩
      | category => exact absurd hdoc Bool.false_ne_true.symm

/-- Adding documents does not touch those that are there. -/
theorem document_of_some_foldl_addOne (docs : List DocEntry) (htree : Tree view.env s)
    (hget : s.entries.get? p = some e) (hdoc : e.isCategory = false) :
    (docs.foldl view.addOne s).entries.get? p = some e := by
  induction docs generalizing s with
  | nil => exact hget
  | cons doc docs ih =>
    obtain ⟨hmany, -⟩ := foldl_script_spec doc htree htree.root
      (List.Subset.refl (view.docScript doc))
    exact ih (added_addOne htree doc).tree (hmany.document_of_some htree hget hdoc)

/-- A document after some have been added was there, or is one of them. -/
theorem document_some_of_foldl_addOne (docs : List DocEntry) (htree : Tree view.env s)
    (hget : (docs.foldl view.addOne s).entries.get? p = some e) (hdoc : e.isCategory = false) :
    s.entries.get? p = some e ∨ ∃ doc ∈ docs, ∃ place ∈ view.docPlaces doc,
      p = (view.docSortKey doc).toKey view.env :: place ∧ e = view.docEntryData doc := by
  induction docs generalizing s with
  | nil => exact .inl hget
  | cons doc docs ih =>
    rcases ih (added_addOne htree doc).tree hget with h | ⟨other, hother, hplaced⟩
    · obtain ⟨hmany, -⟩ := foldl_script_spec doc htree htree.root
        (List.Subset.refl (view.docScript doc))
      rcases hmany.document_some_of htree h hdoc with h | ⟨place, hmem, hpath, he⟩
      · exact .inl h
      · obtain ⟨place', hplace, hlies⟩ := exists_place_of_mem_script hmem
        obtain rfl : place = place' := hlies
        exact .inr ⟨doc, List.mem_cons_self, place, hplace, hpath, he⟩
    · exact .inr ⟨other, List.mem_cons_of_mem _ hother, hplaced⟩

/-- Removing documents does not touch the others. -/
theorem unhangsMany_document_of_some {occurrences : List Occurrence} (hlisted : Listed occurrences)
    (h : Relation.ReflTransGen (view.Unhangs occurrences) s s') (htree : Tree view.env s)
    (hget : s.entries.get? p = some e) (hdoc : e.isCategory = false)
    (hkept : p ∉ takenPaths occurrences) : s'.entries.get? p = some e := by
  have hboth : Tree view.env s' ∧ s'.entries.get? p = some e := by
    induction h with
    | refl => exact ⟨htree, hget⟩
    | tail _ hstep ih =>
      refine ⟨hstep.tree hlisted ih.1, ?_⟩
      obtain ⟨ho, hodoc, horigin, hpath, hentry⟩ := hstep
      refine ih.1.get?_unhang_document (ih.1.parent hentry) ?_ ih.2 hdoc
      rintro rfl
      exact hkept (mem_takenPaths.mpr ⟨_, ho, hodoc, horigin, hpath⟩)
  exact hboth.2

/-- Dropping categories does not touch documents. -/
theorem dropsMany_document_of_some (h : Relation.ReflTransGen view.Drops s s')
    (htree : Tree view.env s) (hcounts : HasCounts s) (hget : s.entries.get? p = some e)
    (hdoc : e.isCategory = false) : s'.entries.get? p = some e := by
  have hall : Tree view.env s' ∧ HasCounts s' ∧ s'.entries.get? p = some e := by
    induction h with
    | refl => exact ⟨htree, hcounts, hget⟩
    | tail _ hdrop ih =>
      obtain ⟨htree', hcounts', hget'⟩ := ih
      obtain ⟨htree'', hcounts'', -⟩ := hdrop.spec htree' hcounts'
      refine ⟨htree'', hcounts'', ?_⟩
      obtain ⟨hentry, hcat, -⟩ := hdrop
      refine htree'.get?_unhang_document (htree'.parent hentry) ?_ hget' hdoc
      rintro rfl
      obtain rfl := Option.some.inj (hget'.symm.trans hentry)
      exact nomatch hdoc.symm.trans hcat
  exact hall.2.2

theorem document_of_some_removals (h : Settled view.env s) (hget : s.entries.get? p = some e)
    (hdoc : e.isCategory = false) (hkept : p ∉ takenPaths (occurrencesToRemove change s)) :
    (view.applyRemovals change s).1.entries.get? p = some e := by
  rw [(removedBy_applyRemovals change h).entries]
  exact unhangsMany_document_of_some (h.lists.listed change) (removed_takenOut change h).steps
    h.tree hget hdoc hkept

/-- **A document that a batch does not take out** is only renumbered. -/
theorem renumbered_of_kept (h : Settled view.env s) (hget : s.entries.get? p = some e)
    (hdoc : e.isCategory = false) (hkept : p ∉ takenPaths (occurrencesToRemove change s)) :
    ∃ e', (view.applyChanges s change).entries.get? p = some e' ∧ Renumbered e e' := by
  have hremoved := removedBy_applyRemovals change h
  have hadded := added_applyAdditions change h
  have hafter : (view.applyAdditions change (view.applyRemovals change s).1).entries.get? p
      = some e := by
    rw [applyAdditions_eq]
    exact document_of_some_foldl_addOne _ hremoved.tree
      (document_of_some_removals h hget hdoc hkept) hdoc
  have hbefore := dropsMany_document_of_some (dropped_beforeFlush change h).steps hadded.tree
    (hadded.counts hremoved.counts) hafter hdoc
  exact (renumbersMany_some (renumbers_processPendingSiblingIndexUpdates view _)).2 hbefore

/-- A document after the removals was there before. -/
theorem document_some_of_removals (h : Settled view.env s)
    (hget : (view.applyRemovals change s).1.entries.get? p = some e)
    (hdoc : e.isCategory = false) :
    p ∉ takenPaths (occurrencesToRemove change s) ∧ s.entries.get? p = some e := by
  have hentries := (removedBy_applyRemovals change h).entries
  obtain ⟨hkept, e₀, he₀, hsame⟩ := (removed_takenOut change h).some_of (hentries ▸ hget)
  have hkeep := document_of_some_removals h he₀ (hsame.isCategory.symm.trans hdoc) hkept
  obtain rfl := Option.some.inj (hget.symm.trans hkeep)
  exact ⟨hkept, he₀⟩

/-- **A document after a batch** was kept, or the batch has placed it. -/
theorem kept_or_placed (h : Settled view.env s) {e' : VirtualViewEntryData}
    (hget : (view.applyChanges s change).entries.get? p = some e') (hdoc : e'.isCategory = false) :
    (p ∉ takenPaths (occurrencesToRemove change s)
        ∧ ∃ e, s.entries.get? p = some e ∧ Renumbered e e') ∨
      ∃ doc ∈ view.acceptedDocs change, ∃ place ∈ view.docPlaces doc,
        p = (view.docSortKey doc).toKey view.env :: place
          ∧ Renumbered (view.docEntryData doc) e' := by
  have hremoved := removedBy_applyRemovals change h
  have hadded := added_applyAdditions change h
  obtain ⟨e₃, he₃, hsame₃⟩ :=
    (renumbersMany_some (renumbers_processPendingSiblingIndexUpdates view _)).1 hget
  have hdoc₃ := hsame₃.same.isCategory.symm.trans hdoc
  obtain ⟨e₂, he₂, hsame₂⟩ := dropsMany_some_of (dropped_beforeFlush change h).steps he₃
  have hkeep := dropsMany_document_of_some (dropped_beforeFlush change h).steps hadded.tree
    (hadded.counts hremoved.counts) he₂ (hsame₂.isCategory.symm.trans hdoc₃)
  obtain rfl := Option.some.inj (he₃.symm.trans hkeep)
  rw [applyAdditions_eq] at he₂
  rcases document_some_of_foldl_addOne _ hremoved.tree he₂ hdoc₃ with he₁ | ⟨doc, hdocs, place,
    hplace, hpath, rfl⟩
  · obtain ⟨hkept, he⟩ := document_some_of_removals h he₁ hdoc₃
    exact .inl ⟨hkept, _, he, hsame₃⟩
  · exact .inr ⟨doc, hdocs, place, hplace, hpath, hsame₃⟩

variable (view) in
/-- **Every document of the tree is as it was made**, at one of its places. -/
def Made (s : ViewIndex) : Prop :=
  ∀ p e, s.entries.get? p = some e → e.isCategory = false → ∃ doc, ∃ place ∈ view.docPlaces doc,
    p = (view.docSortKey doc).toKey view.env :: place ∧ Renumbered (view.docEntryData doc) e

theorem made_initial : view.Made view.initial := by
  intro p e hget hdoc
  rw [get?_initial] at hget
  split at hget
  · obtain rfl := Option.some.inj hget
    exact absurd hdoc Bool.false_ne_true.symm
  · cases hget

theorem Made.applyChanges (hs : Settled view.env s) (h : view.Made s) :
    view.Made (view.applyChanges s change) := by
  intro p e' hget hdoc
  rcases kept_or_placed hs hget hdoc with ⟨-, e, he, hrenumbered⟩ | ⟨doc, -, hplaced⟩
  · obtain ⟨doc, place, hplace, hpath, hmade⟩ := h p e he
      (hrenumbered.same.isCategory.symm.trans hdoc)
    exact ⟨doc, place, hplace, hpath, hmade.trans hrenumbered⟩
  · exact ⟨doc, hplaced⟩

theorem made_run (changes : List VirtualViewDataChange) : view.Made (view.run changes) := by
  induction changes using List.reverseRecOn with
  | nil => exact made_initial
  | append_singleton changes change ih =>
    rw [run, List.foldl_append]
    exact ih.applyChanges (settled_run changes)

/-! ## The lists -/

variable (view) in
/-- A document is listed at one of its places, under its own key. -/
def IsListed (s : ViewIndex) (p : EntryPath) (e : VirtualViewEntryData) : Prop :=
  ∃ doc, ∃ place ∈ view.docPlaces doc, p = (view.docSortKey doc).toKey view.env :: place
    ∧ Renumbered (view.docEntryData doc) e
    ∧ s.entriesByDocId.get? (scopedDocIdKey doc.origin doc.docId)
      = some ((view.docPlaces doc).map (view.occurrenceAt doc))

variable (view) in
/-- **What is listed, and where what is in the tree is listed.** -/
structure Lists (s : ViewIndex) : Prop where
  listed : ∀ key occurrences, s.entriesByDocId.get? key = some occurrences →
    (∃ doc : DocEntry, scopedDocIdKey doc.origin doc.docId = key
        ∧ occurrences = (view.docPlaces doc).map (view.occurrenceAt doc)) ∨
      ∀ o ∈ occurrences, o.isCategory = true
  find : ∀ p e, s.entries.get? p = some e → e.isCategory = false →
    e.origin ≠ ORIGIN_VIRTUALVIEW → view.IsListed s p e
  categories : ∀ key p e, s.entries.get? (key :: p) = some e → e.isCategory = true →
    IsCategoryKey (scopedDocIdKey e.origin e.docId)

/-- No document of the tree is listed under the key of one of these. -/
def Unclaimed (docs : List DocEntry) (s : ViewIndex) : Prop :=
  ∀ p e, s.entries.get? p = some e → e.isCategory = false → e.origin ≠ ORIGIN_VIRTUALVIEW →
    ∀ doc ∈ docs, scopedDocIdKey e.origin e.docId ≠ scopedDocIdKey doc.origin doc.docId

theorem IsListed.origin {e : VirtualViewEntryData}
    (h : Renumbered (view.docEntryData doc) e) : doc.origin = e.origin ∧ doc.docId = e.docId :=
  ⟨h.same.origin.symm, h.same.docId.symm⟩

/-- A document stays listed where the lists under keys of other origins stay. -/
theorem IsListed.of_get?_eq (h : view.IsListed s p e) (horigin : e.origin ≠ ORIGIN_VIRTUALVIEW)
    (hlists : ¬IsCategoryKey (scopedDocIdKey e.origin e.docId) →
      s'.entriesByDocId.get? (scopedDocIdKey e.origin e.docId)
        = s.entriesByDocId.get? (scopedDocIdKey e.origin e.docId)) : view.IsListed s' p e := by
  obtain ⟨doc, place, hplace, hpath, hrenumbered, hget⟩ := h
  obtain ⟨ho, hd⟩ := IsListed.origin hrenumbered
  rw [ho, hd] at hget
  refine ⟨doc, place, hplace, hpath, hrenumbered, ?_⟩
  rw [ho, hd, hlists fun hkey => horigin (origin_of_isCategoryKey hkey)]
  exact hget

/-! ### Removals -/

theorem entriesByDocId_applyRemovals (s : ViewIndex) : (view.applyRemovals change s).1.entriesByDocId
    = unlist change.origin (docIdsToRemove change).toList s.entriesByDocId := by
  rw [applyRemovals_eq]

theorem Lists.applyRemovals (hs : Settled view.env s) (h : view.Lists s) :
    view.Lists (view.applyRemovals change s).1 where
  listed key occurrences hget := by
    rw [entriesByDocId_applyRemovals, get?_unlist] at hget
    split at hget
    · cases hget
    · exact h.listed key occurrences hget
  find p e hget hdoc horigin := by
    obtain ⟨hkept, he⟩ := document_some_of_removals hs hget hdoc
    have hlisted := h.find p e he hdoc horigin
    obtain ⟨doc, place, hplace, hpath, hrenumbered, hlist⟩ := hlisted
    refine ⟨doc, place, hplace, hpath, hrenumbered, ?_⟩
    rw [entriesByDocId_applyRemovals, get?_unlist, if_neg]
    · exact hlist
    · -- its occurrence would have been taken out
      intro hmem
      obtain ⟨docId, hdocId, hkey⟩ := List.mem_map.mp hmem
      refine hkept (mem_takenPaths.mpr ⟨view.occurrenceAt doc place, ?_, rfl, ?_, hpath.symm⟩)
      · refine List.mem_flatMap.mpr ⟨docId, hdocId, ?_⟩
        rw [hkey, hlist]
        exact List.mem_map_of_mem hplace
      · exact fun heq => horigin ((IsListed.origin hrenumbered).1 ▸ heq)
  categories key p e hget hcat := by
    rw [(removedBy_applyRemovals change hs).entries] at hget
    obtain ⟨-, e₀, he₀, hsame⟩ := (removed_takenOut change hs).some_of hget
    rw [hsame.origin, hsame.docId]
    exact h.categories key p e₀ he₀ (hsame.isCategory.symm.trans hcat)

/-- What a batch replaces is not in the tree while it adds. -/
theorem unclaimed_applyRemovals (hs : Settled view.env s) (h : view.Lists s) :
    Unclaimed (view.acceptedDocs change) (view.applyRemovals change s).1 := by
  intro p e hget hdoc horigin doc hmem heq
  have hlists : view.Lists (view.applyRemovals change s).1 := Lists.applyRemovals hs h
  obtain ⟨doc', place, hplace, hpath, hrenumbered, hlist⟩ := hlists.find p e hget hdoc horigin
  obtain ⟨ho, hd⟩ := IsListed.origin hrenumbered
  rw [ho, hd, heq, entriesByDocId_applyRemovals, get?_unlist, if_pos] at hlist
  · exact nomatch hlist
  · obtain ⟨addition, hadd, rfl⟩ := List.mem_map.mp hmem
    refine List.mem_map.mpr ⟨addition.1, ?_, rfl⟩
    exact LinkedSet.mem_addAll.mpr (.inl (List.mem_map_of_mem (List.mem_of_mem_filter hadd)))

/-! ### Additions -/

/-- Placing a document only adds lists of categories. -/
theorem HangsMany.get?_lists
    (h : view.HangsMany doc steps s s') {key : JSString} (hkey : ¬IsCategoryKey key) :
    s'.entriesByDocId.get? key = s.entriesByDocId.get? key := by
  induction h with
  | refl => rfl
  | tail _ hstep ih =>
    cases hstep with
    | document => exact ih
    | category _ _ _ lists counter hlists =>
      change lists.get? key = _
      rw [hlists, LinkedMap.get?_set_of_ne _ _ fun heq => hkey ⟨counter, heq⟩]
      exact ih

theorem HangsMany.listed
    (h : view.HangsMany doc steps s s') {key : JSString} {occurrences : List Occurrence}
    (hget : s'.entriesByDocId.get? key = some occurrences) :
    s.entriesByDocId.get? key = some occurrences ∨ ∀ o ∈ occurrences, o.isCategory = true := by
  induction h with
  | refl => exact .inl hget
  | tail _ hstep ih =>
    cases hstep with
    | document => exact ih hget
    | category _ _ _ lists counter hlists =>
      change lists.get? key = _ at hget
      rw [hlists, LinkedMap.get?_set] at hget
      split at hget
      · obtain rfl := Option.some.inj hget
        exact .inr fun o ho => List.mem_singleton.mp ho ▸ rfl
      · exact ih hget

theorem Lists.addOne (htree : Tree view.env s) (h : view.Lists s)
    (hunclaimed : Unclaimed [doc] s) : view.Lists (view.addOne s doc) := by
  obtain ⟨hmany, -⟩ := foldl_script_spec doc htree htree.root
    (List.Subset.refl (view.docScript doc))
  have hset : ∀ key, (view.addOne s doc).entriesByDocId.get? key
      = if key = scopedDocIdKey doc.origin doc.docId then
          some ((view.docPlaces doc).map (view.occurrenceAt doc))
        else ((view.docScript doc).foldl (view.place doc) s).entriesByDocId.get? key := fun key =>
    LinkedMap.get?_set _ _ _ _
  refine ⟨fun key occurrences hget => ?_, fun p e hget hdoc horigin => ?_,
    fun key p e hget hcat => ?_⟩
  · rw [hset] at hget
    split at hget
    · rename_i hkey
      exact .inl ⟨doc, hkey.symm, (Option.some.inj hget).symm⟩
    · rcases hmany.listed hget with hget | hcategories
      · exact h.listed key occurrences hget
      · exact .inr hcategories
  · rcases document_some_of_foldl_addOne [doc] htree hget hdoc with he | ⟨doc', hdoc', place,
      hplace, hpath, rfl⟩
    · refine (h.find p e he hdoc horigin).of_get?_eq horigin fun hkey => ?_
      rw [hset, if_neg (hunclaimed p e he hdoc horigin doc List.mem_cons_self)]
      exact hmany.get?_lists hkey
    · obtain rfl := List.mem_singleton.mp hdoc'
      exact ⟨doc', place, hplace, hpath, Renumbered.refl _, (hset _).trans (if_pos rfl)⟩
  · rcases (added_addOne htree doc).some_of hget with ⟨e₀, he₀, hsame⟩ |
      ⟨-, doc', hdoc', step, hstep, counter, hpath, hsame⟩
    · rw [hsame.origin, hsame.docId]
      exact h.categories key p e₀ he₀ (hsame.isCategory.symm.trans hcat)
    · rw [hsame.origin, hsame.docId]
      cases step with
      | document => cases hsame.isCategory.symm.trans hcat
      | category => exact ⟨counter, rfl⟩

theorem Unclaimed.addOne {docs : List DocEntry} (htree : Tree view.env s)
    (h : Unclaimed (doc :: docs) s) (hother : ∀ other ∈ docs, scopedDocIdKey doc.origin doc.docId
      ≠ scopedDocIdKey other.origin other.docId) : Unclaimed docs (view.addOne s doc) := by
  intro p e hget hdoc horigin other hmem
  rcases document_some_of_foldl_addOne [doc] htree hget hdoc with he | ⟨doc', hdoc', place, -, -,
    rfl⟩
  · exact h p e he hdoc horigin other (List.mem_cons_of_mem _ hmem)
  · obtain rfl := List.mem_singleton.mp hdoc'
    exact hother other hmem

theorem Lists.foldl_addOne (docs : List DocEntry) (htree : Tree view.env s) (h : view.Lists s)
    (hunclaimed : Unclaimed docs s)
    (hdistinct : docs.Pairwise fun doc other => scopedDocIdKey doc.origin doc.docId
      ≠ scopedDocIdKey other.origin other.docId) : view.Lists (docs.foldl view.addOne s) := by
  induction docs generalizing s with
  | nil => exact h
  | cons doc docs ih =>
    obtain ⟨hother, hdistinct'⟩ := List.pairwise_cons.mp hdistinct
    have hfirst : Unclaimed [doc] s := fun p e hget hdoc horigin other hmem =>
      hunclaimed p e hget hdoc horigin other (List.mem_singleton.mp hmem ▸ List.mem_cons_self)
    exact ih (added_addOne htree doc).tree (h.addOne htree hfirst)
      (hunclaimed.addOne htree hother) hdistinct'

theorem pairwise_acceptedDocs (change : VirtualViewDataChange) :
    (view.acceptedDocs change).Pairwise fun doc other => scopedDocIdKey doc.origin doc.docId
      ≠ scopedDocIdKey other.origin other.docId := by
  refine List.pairwise_map.mpr (List.Pairwise.filter _ ?_)
  have hkeys : change.additions.toList.Pairwise fun a b => a.1 ≠ b.1 :=
    List.pairwise_map.mp change.additions.nodupKeys
  exact hkeys.imp fun hne heq => hne (scopedDocIdKey_inj heq)

/-! ### The cleanup -/

theorem Lists.drops (h : view.Lists s) (hdrop : view.Drops s s') (htree : Tree view.env s) :
    view.Lists s' := by
  have hsome : ∀ {p e}, s'.entries.get? p = some e → ∃ e₀, s.entries.get? p = some e₀
      ∧ SameEntry e₀ e := fun hget => hdrop.some_of hget
  obtain ⟨hentry, hcat, -⟩ := hdrop
  rename_i key parent entry
  have hcategory := h.categories key parent entry hentry hcat
  refine ⟨fun k occurrences hget => ?_, fun p e hget hdoc horigin => ?_, fun k q e hget hc => ?_⟩
  · rw [LinkedMap.get?_delete] at hget
    split at hget
    · cases hget
    · exact h.listed k occurrences hget
  · obtain ⟨e₀, he₀, hsame⟩ := hsome hget
    have hdoc₀ := hsame.isCategory.symm.trans hdoc
    have hother : p ≠ key :: parent := by
      rintro rfl
      obtain rfl := Option.some.inj (he₀.symm.trans hentry)
      cases hdoc₀.symm.trans hcat
    have hkept : (s.unhang view.env entry id key parent).entries.get? p = some e₀ :=
      htree.get?_unhang_document (htree.parent hentry) hother he₀ hdoc₀
    obtain rfl := Option.some.inj (hget.symm.trans hkept)
    refine (h.find p e he₀ hdoc horigin).of_get?_eq horigin fun hkey => ?_
    exact LinkedMap.get?_delete_of_ne _ fun heq => hkey (heq ▸ hcategory)
  · obtain ⟨e₀, he₀, hsame⟩ := hsome hget
    rw [hsame.origin, hsame.docId]
    exact h.categories k q e₀ he₀ (hsame.isCategory.symm.trans hc)

theorem Lists.dropsMany (h : view.Lists s) (hmany : Relation.ReflTransGen view.Drops s s')
    (htree : Tree view.env s) (hcounts : HasCounts s) : view.Lists s' := by
  have hall : Tree view.env s' ∧ HasCounts s' ∧ view.Lists s' := by
    induction hmany with
    | refl => exact ⟨htree, hcounts, h⟩
    | tail _ hdrop ih =>
      obtain ⟨htree', hcounts', hlists'⟩ := ih
      obtain ⟨htree'', hcounts'', -⟩ := hdrop.spec htree' hcounts'
      exact ⟨htree'', hcounts'', hlists'.drops hdrop htree'⟩
  exact hall.2.2

theorem Lists.renumbersMany (h : view.Lists s) (hmany : Relation.ReflTransGen Renumbers s s')
    (htree : Tree view.env s) : view.Lists s' := by
  obtain ⟨-, hlists, -⟩ := renumbersMany_spec hmany htree
  refine ⟨fun key occurrences hget => h.listed key occurrences (hlists ▸ hget),
    fun p e hget hdoc horigin => ?_, fun key p e hget hcat => ?_⟩
  · obtain ⟨e₀, he₀, hrenumbered⟩ := (renumbersMany_some hmany).1 hget
    obtain ⟨doc, place, hplace, hpath, hmade, hlist⟩ := h.find p e₀ he₀
      (hrenumbered.same.isCategory.symm.trans hdoc) (hrenumbered.same.origin ▸ horigin)
    exact ⟨doc, place, hplace, hpath, hmade.trans hrenumbered, hlists ▸ hlist⟩
  · obtain ⟨e₀, he₀, hrenumbered⟩ := (renumbersMany_some hmany).1 hget
    rw [hrenumbered.same.origin, hrenumbered.same.docId]
    exact h.categories key p e₀ he₀ (hrenumbered.same.isCategory.symm.trans hcat)

/-! ### Runs -/

/-- **Every batch keeps the lists.** -/
theorem Lists.applyChanges (hs : Settled view.env s) (h : view.Lists s) :
    view.Lists (view.applyChanges s change) := by
  have hremoved := removedBy_applyRemovals change hs
  have hadded := added_applyAdditions change hs
  have hadditions : view.Lists
      (view.applyAdditions change (view.applyRemovals change s).1) := by
    rw [applyAdditions_eq]
    exact Lists.foldl_addOne _ hremoved.tree (Lists.applyRemovals hs h)
      (unclaimed_applyRemovals hs h) (pairwise_acceptedDocs change)
  exact (hadditions.dropsMany (dropped_beforeFlush change hs).steps hadded.tree
    (hadded.counts hremoved.counts)).renumbersMany
      (renumbers_processPendingSiblingIndexUpdates view _) (settled_beforeFlush change hs).tree

theorem lists_initial : view.Lists view.initial := by
  refine ⟨fun key occurrences hget => absurd hget (by simp [initial]),
    fun p e hget hdoc horigin => ?_, fun key p e hget hcat => ?_⟩
  · obtain ⟨doc, place, hplace, hpath, -⟩ := made_initial p e hget hdoc
    rw [hpath, get?_initial, if_neg (by simp)] at hget
    cases hget
  · rw [get?_initial, if_neg (by simp)] at hget
    cases hget

/-- **After every run** the documents of the tree are listed. -/
theorem lists_run (changes : List VirtualViewDataChange) : view.Lists (view.run changes) := by
  induction changes using List.reverseRecOn with
  | nil => exact lists_initial
  | append_singleton changes change ih =>
    rw [run, List.foldl_append]
    exact Lists.applyChanges (settled_run changes) ih

end VirtualView

end MindooDB
