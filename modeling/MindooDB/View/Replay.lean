import MindooDB.View.Contents

/-!
# View/Replay — whether a batch stands for its calls

A batch collects calls of `addEntry` and `removeEntry`, and keeps of each document the last values
added and whether it was ever removed.  A document that a batch both removes and adds is taken out
and put back, whichever call came last: so applying the batch and applying its calls one at a time
leave the same documents just where no document is removed after values of it have been added that
the view accepts (`documentsIn_ofCalls_iff`).
-/

namespace MindooDB

open List

/-- A call that collects a change. -/
inductive ChangeCall where
  | addEntry (docId : JSString) (data : EntryData)
  | removeEntry (docId : JSString)

namespace ChangeCall

def docId : ChangeCall → JSString
  | addEntry docId _ => docId
  | removeEntry docId => docId

/-- The last call about a document. -/
def lastCall (calls : List ChangeCall) (docId : JSString) : Option ChangeCall :=
  (calls.filter (·.docId = docId)).getLast?

/-- The data of a call that adds a document. -/
def added (docId : JSString) : ChangeCall → Option EntryData
  | addEntry other data => if other = docId then some data else none
  | removeEntry _ => none

/-- What was last added of a document. -/
def lastAdded (calls : List ChangeCall) (docId : JSString) : Option EntryData :=
  (calls.filterMap (·.added docId)).getLast?

variable {calls : List ChangeCall} {call : ChangeCall} {docId : JSString}

theorem lastCall_concat : lastCall (calls ++ [call]) docId
    = if call.docId = docId then some call else lastCall calls docId := by
  rw [lastCall, filter_append]
  by_cases h : call.docId = docId <;> simp [h, lastCall]

theorem lastAdded_concat : lastAdded (calls ++ [call]) docId
    = (call.added docId).or (lastAdded calls docId) := by
  rw [lastAdded, filterMap_append]
  cases h : call.added docId <;> simp [h, lastAdded]

theorem mem_of_lastCall (h : lastCall calls docId = some call) :
    call ∈ calls ∧ call.docId = docId := by
  have hmem := mem_filter.mp (mem_of_getLast? h)
  exact ⟨hmem.1, of_decide_eq_true hmem.2⟩

theorem isSome_lastCall (hmem : call ∈ calls) : ∃ last, lastCall calls call.docId = some last := by
  have hne : calls.filter (·.docId = call.docId) ≠ [] :=
    ne_nil_of_mem (mem_filter.mpr ⟨hmem, decide_eq_true rfl⟩)
  exact ⟨_, getLast?_eq_some_getLast hne⟩

/-- What the last call added is what was last added. -/
theorem lastAdded_of_lastCall {data : EntryData}
    (h : lastCall calls docId = some (addEntry docId data)) : lastAdded calls docId = some data := by
  induction calls using List.reverseRecOn with
  | nil => exact absurd h (by simp [lastCall])
  | append_singleton calls call ih =>
    rw [lastCall_concat] at h
    rw [lastAdded_concat]
    split at h
    · obtain rfl := Option.some.inj h
      simp [added]
    · cases call with
      | addEntry other data' =>
        rw [added, if_neg (by assumption), Option.none_or]
        exact ih h
      | removeEntry other => exact ih h

theorem mem_of_lastAdded {data : EntryData} (h : lastAdded calls docId = some data) :
    addEntry docId data ∈ calls := by
  obtain ⟨call, hmem, hcall⟩ := mem_filterMap.mp (mem_of_getLast? h)
  cases call with
  | addEntry other data' =>
    rw [added] at hcall
    split at hcall
    · obtain rfl := Option.some.inj hcall
      subst docId
      exact hmem
    · exact nomatch hcall
  | removeEntry other => exact absurd hcall (by simp [added])

end ChangeCall

namespace VirtualViewDataChange

def call (change : VirtualViewDataChange) : ChangeCall → VirtualViewDataChange
  | .addEntry docId data => change.addEntry docId data
  | .removeEntry docId => change.removeEntry docId

/-- The change that some calls collect. -/
def ofCalls (origin : JSString) (calls : List ChangeCall) : VirtualViewDataChange :=
  calls.foldl call { origin := origin }

variable {origin docId : JSString} {calls : List ChangeCall} {last : ChangeCall}

theorem ofCalls_concat : ofCalls origin (calls ++ [last]) = (ofCalls origin calls).call last :=
  foldl_append

theorem origin_ofCalls : (ofCalls origin calls).origin = origin := by
  induction calls using List.reverseRecOn with
  | nil => rfl
  | append_singleton calls last ih =>
    rw [ofCalls_concat]
    cases last <;> exact ih

/-- **A change adds of each document what was last added.** -/
theorem get?_additions_ofCalls :
    (ofCalls origin calls).additions.get? docId = ChangeCall.lastAdded calls docId := by
  induction calls using List.reverseRecOn with
  | nil => rfl
  | append_singleton calls last ih =>
    rw [ofCalls_concat, ChangeCall.lastAdded_concat, ← ih]
    cases last with
    | addEntry other data =>
      rw [call, addEntry, LinkedMap.get?_set, ChangeCall.added]
      by_cases h : docId = other
      · rw [if_pos h, if_pos h.symm, Option.some_or]
      · rw [if_neg h, if_neg (Ne.symm h), Option.none_or]
    | removeEntry other => rw [call, removeEntry, ChangeCall.added, Option.none_or]

/-- A change names the documents that its calls are about. -/
theorem mem_docIdsToRemove_ofCalls :
    docId ∈ VirtualView.docIdsToRemove (ofCalls origin calls) ↔ ∃ c ∈ calls, c.docId = docId := by
  induction calls using List.reverseRecOn with
  | nil => simp [VirtualView.mem_docIdsToRemove, ofCalls, LinkedMap.get?]
  | append_singleton calls last ih =>
    rw [VirtualView.mem_docIdsToRemove] at ih ⊢
    rw [ofCalls_concat]
    cases last with
    | addEntry other data =>
      rw [call, addEntry, LinkedMap.get?_set]
      by_cases h : docId = other
      · simp [h, ChangeCall.docId]
      · simp [h, Ne.symm h, ih, ChangeCall.docId]
    | removeEntry other =>
      rw [call, removeEntry, LinkedSet.mem_add, or_assoc, ih]
      simp [ChangeCall.docId, or_comm, eq_comm]

end VirtualViewDataChange

namespace VirtualView

open VirtualViewDataChange

variable (view : VirtualView)

/-- Every call in a batch of its own. -/
def applyCalls (origin : JSString) (s : ViewIndex) (calls : List ChangeCall) : ViewIndex :=
  calls.foldl (fun s call => view.applyChanges s (ofCalls origin [call])) s

variable {view} {s : ViewIndex} {docs : Set DocEntry} {doc : DocEntry} {origin : JSString}
  {calls : List ChangeCall}

/-- What is provided after every call in a batch of its own. -/
def providedAfterCalls (origin : JSString) (docs : Set DocEntry) (calls : List ChangeCall) :
    Set DocEntry :=
  calls.foldl (fun docs call => providedAfter (ofCalls origin [call]) docs) docs

theorem ShowsDocs.applyCalls (h : view.ShowsDocs docs s) (hown : origin ≠ ORIGIN_VIRTUALVIEW)
    (calls : List ChangeCall) :
    view.ShowsDocs (providedAfterCalls origin docs calls) (view.applyCalls origin s calls) := by
  induction calls generalizing s docs with
  | nil => exact h
  | cons call calls ih => exact ih (h.applyChanges (by rwa [origin_ofCalls]))

/-- A run shows the documents that its batches have left. -/
theorem exists_showsDocs_run (view : VirtualView) {changes : List VirtualViewDataChange}
    (hown : ∀ change ∈ changes, change.origin ≠ ORIGIN_VIRTUALVIEW) :
    ∃ docs, view.ShowsDocs docs (view.run changes) := by
  induction changes using List.reverseRecOn with
  | nil => exact ⟨∅, showsDocs_initial⟩
  | append_singleton changes change ih =>
    obtain ⟨docs, h⟩ := ih fun c hc => hown c (mem_append_left _ hc)
    rw [run_concat]
    exact ⟨_, h.applyChanges (hown change (by simp))⟩

/-! ## The documents that calls leave -/

/-- The batch leaves what its calls last added. -/
theorem mem_providedAfter_ofCalls : doc ∈ providedAfter (ofCalls origin calls) docs ↔
    doc.origin = origin
        ∧ ChangeCall.lastAdded calls doc.docId = some ⟨doc.columnValues, doc.decryptionKeyId⟩
      ∨ doc ∈ docs ∧ ∀ call ∈ calls,
        scopedDocIdKey doc.origin doc.docId ≠ scopedDocIdKey origin call.docId := by
  rw [providedAfter, Set.mem_ofPred_eq, origin_ofCalls, get?_additions_ofCalls]
  refine or_congr_right (and_congr_right fun _ => ?_)
  simp only [mem_docIdsToRemove_ofCalls]
  constructor
  · exact fun h call hcall => h _ ⟨call, hcall, rfl⟩
  · rintro h _ ⟨call, hcall, rfl⟩
    exact h call hcall

/-- **One at a time, the last call about a document decides.** -/
theorem mem_providedAfterCalls : doc ∈ providedAfterCalls origin docs calls ↔
    doc.origin = origin ∧ ChangeCall.lastCall calls doc.docId
        = some (.addEntry doc.docId ⟨doc.columnValues, doc.decryptionKeyId⟩)
      ∨ doc ∈ docs ∧ ∀ call ∈ calls,
        scopedDocIdKey doc.origin doc.docId ≠ scopedDocIdKey origin call.docId := by
  induction calls using List.reverseRecOn with
  | nil => simp [providedAfterCalls, ChangeCall.lastCall]
  | append_singleton calls last ih =>
    rw [providedAfterCalls, foldl_append, foldl_cons, foldl_nil,
      mem_providedAfter_ofCalls, ← providedAfterCalls, ih, ChangeCall.lastCall_concat]
    have hsingle : ChangeCall.lastAdded [last] doc.docId = last.added doc.docId := by
      rw [show [last] = [] ++ [last] from rfl, ChangeCall.lastAdded_concat]
      exact Option.or_none
    rw [hsingle]
    by_cases hlast : last.docId = doc.docId
    · rw [if_pos hlast]
      have hadded : last.added doc.docId = some ⟨doc.columnValues, doc.decryptionKeyId⟩
          ↔ last = .addEntry doc.docId ⟨doc.columnValues, doc.decryptionKeyId⟩ := by
        cases last with
        | addEntry other data =>
          obtain rfl : other = doc.docId := hlast
          simp [ChangeCall.added]
        | removeEntry other => simp [ChangeCall.added]
      rw [hadded, Option.some_inj]
      constructor
      · rintro (h | ⟨⟨horigin, -⟩ | ⟨hdoc, hcalls⟩, hnot⟩)
        · exact .inl h
        · exact absurd (by rw [horigin, hlast]) (hnot last (by simp))
        · refine .inr ⟨hdoc, fun call hcall => ?_⟩
          rcases mem_append.mp hcall with hcall | hcall
          · exact hcalls call hcall
          · exact hnot call hcall
      · rintro (h | ⟨hdoc, hcalls⟩)
        · exact .inl h
        · exact .inr ⟨.inr ⟨hdoc, fun call hcall => hcalls call (mem_append_left _ hcall)⟩,
            fun call hcall => hcalls call (mem_append_right _ hcall)⟩
    · rw [if_neg hlast]
      have hadded : last.added doc.docId = none := by
        cases last with
        | addEntry other data => exact if_neg hlast
        | removeEntry other => rfl
      have hkey : doc.origin = origin →
          scopedDocIdKey doc.origin doc.docId ≠ scopedDocIdKey origin last.docId := by
        rintro rfl heq
        exact hlast (scopedDocIdKey_inj heq).symm
      simp only [hadded, reduceCtorEq, and_false, false_or, mem_singleton, forall_eq,
        mem_append, or_imp, forall_and]
      constructor
      · rintro ⟨h | h, hnot⟩
        · exact .inl h
        · exact .inr ⟨h.1, h.2, hnot⟩
      · rintro (h | h)
        · exact ⟨.inl h, hkey h.1⟩
        · exact ⟨.inr ⟨h.1, h.2.1⟩, h.2.2⟩

/-! ## The batch and its calls -/

/-- No document is removed after something of it has been added that the view accepts. -/
def NoneRemovedAfterAdded (view : VirtualView) (origin : JSString) (calls : List ChangeCall) :
    Prop :=
  ∀ docId data, ChangeCall.lastCall calls docId = some (.removeEntry docId) →
    ChangeCall.lastAdded calls docId = some data → view.isAccepted origin docId data.values = false

/-- What the calls leave, the batch leaves. -/
theorem mem_providedAfter_of_calls (h : doc ∈ providedAfterCalls origin docs calls) :
    doc ∈ providedAfter (ofCalls origin calls) docs := by
  rw [mem_providedAfterCalls] at h
  rw [mem_providedAfter_ofCalls]
  exact h.imp_left fun h => ⟨h.1, ChangeCall.lastAdded_of_lastCall h.2⟩

/-- What the batch leaves and the view accepts, the calls leave. -/
theorem mem_providedAfterCalls_of_batch (hnone : view.NoneRemovedAfterAdded origin calls)
    (h : doc ∈ providedAfter (ofCalls origin calls) docs)
    (haccepted : view.isAccepted doc.origin doc.docId doc.columnValues = true) :
    doc ∈ providedAfterCalls origin docs calls := by
  rw [mem_providedAfter_ofCalls] at h
  rw [mem_providedAfterCalls]
  refine h.imp_left fun ⟨horigin, hadded⟩ => ⟨horigin, ?_⟩
  obtain ⟨last, hlast⟩ := ChangeCall.isSome_lastCall (ChangeCall.mem_of_lastAdded hadded)
  rw [ChangeCall.docId] at hlast
  have hdocId := (ChangeCall.mem_of_lastCall hlast).2
  cases last with
  | addEntry other data =>
    obtain rfl : other = doc.docId := hdocId
    rw [hlast]
    rw [ChangeCall.lastAdded_of_lastCall hlast] at hadded
    rw [Option.some.inj hadded]
  | removeEntry other =>
    obtain rfl : other = doc.docId := hdocId
    have hrejected := hnone _ _ hlast hadded
    rw [← horigin] at hrejected
    exact nomatch haccepted.symm.trans hrejected

/-- **A batch leaves the documents that its calls leave one at a time, just where no document is
removed after values of it have been added that the view accepts.**  They are then at the same
paths, too. -/
theorem documentsIn_ofCalls_iff (view : VirtualView) (changes : List VirtualViewDataChange)
    (origin : JSString) (calls : List ChangeCall)
    (howns : ∀ change ∈ changes, change.origin ≠ ORIGIN_VIRTUALVIEW)
    (hown : origin ≠ ORIGIN_VIRTUALVIEW) :
    let batch := view.applyChanges (view.run changes) (ofCalls origin calls)
    let replay := view.applyCalls origin (view.run changes) calls
    (DocumentsIn batch replay ∧ DocumentsIn replay batch
        ↔ view.NoneRemovedAfterAdded origin calls)
      ∧ (view.NoneRemovedAfterAdded origin calls →
        DocumentsAt batch replay ∧ DocumentsAt replay batch) := by
  intro batch replay
  obtain ⟨docs, hbefore⟩ := exists_showsDocs_run view howns
  have hbatch : view.ShowsDocs (providedAfter (ofCalls origin calls) docs) batch :=
    hbefore.applyChanges (by rwa [origin_ofCalls])
  have hreplay : view.ShowsDocs (providedAfterCalls origin docs calls) replay :=
    hbefore.applyCalls hown calls
  have hat : view.NoneRemovedAfterAdded origin calls →
      DocumentsAt batch replay ∧ DocumentsAt replay batch := fun hnone =>
    ⟨hbatch.documentsAt hreplay fun _ => mem_providedAfterCalls_of_batch hnone,
      hreplay.documentsAt hbatch fun _ h _ => mem_providedAfter_of_calls h⟩
  refine ⟨⟨fun h docId data hlast hadded => ?_, fun hnone => ?_⟩, hat⟩
  · -- a document of the batch that its last call has removed
    by_contra haccepted
    rw [Bool.not_eq_false] at haccepted
    have hmem : data.toDoc origin docId ∈ providedAfter (ofCalls origin calls) docs :=
      mem_providedAfter_ofCalls.mpr (Or.inl ⟨rfl, hadded⟩)
    have hplaces : view.docPlaces (data.toDoc origin docId) ≠ [] :=
      places_ne_nil (data.toDoc origin docId) view.categoryColumns []
    obtain ⟨place, hplace⟩ := exists_mem_of_ne_nil _ hplaces
    obtain ⟨e, he, hmade⟩ := hbatch.placed _ hmem haccepted place hplace
    obtain ⟨p', e', he', hdoc', hsame⟩ := h.1 _ e he (hbatch.settled.tree.isCategory_eq he)
    obtain ⟨doc', hdoc, -, hmade', -⟩ := hreplay.shown p' e' he' hdoc'
    have horigin : doc'.origin = origin := by
      rw [(IsListed.origin hmade').1, ← hsame.origin, ← (IsListed.origin hmade).1]
      rfl
    have hdocId : doc'.docId = docId := by
      rw [(IsListed.origin hmade').2, ← hsame.docId, ← (IsListed.origin hmade).2]
      rfl
    rcases mem_providedAfterCalls.mp hdoc with ⟨-, hadd⟩ | ⟨-, hnot⟩
    · rw [hdocId, hlast] at hadd
      exact absurd hadd (by simp)
    · refine hnot _ (ChangeCall.mem_of_lastCall hlast).1 ?_
      rw [horigin, hdocId]
      rfl
  · obtain ⟨hbr, hrb⟩ := hat hnone
    exact ⟨fun p e hget hdoc => ⟨p, hbr p e hget hdoc⟩, fun p e hget hdoc => ⟨p, hrb p e hget hdoc⟩⟩

/-- A view without columns. -/
def columnless : VirtualView where
  columns := []
  categorizationStyle := .CATEGORY_THEN_DOCUMENT
  isAccepted _ _ _ := true
  env := plainRuntime

/-- A document that changes twice while another comes. -/
theorem documentsIn_ofCalls_iff_changedTwice :
    let calls : List ChangeCall := [.addEntry "x" ⟨∅, none⟩, .removeEntry "x",
      .addEntry "y" ⟨∅, none⟩, .addEntry "x" ⟨∅, some "key"⟩]
    DocumentsAt (columnless.applyChanges (columnless.run []) (ofCalls "o" calls))
        (columnless.applyCalls "o" (columnless.run []) calls)
      ∧ DocumentsAt (columnless.applyCalls "o" (columnless.run []) calls)
        (columnless.applyChanges (columnless.run []) (ofCalls "o" calls)) := by
  intro calls
  refine (documentsIn_ofCalls_iff columnless [] "o" calls (by simp) (by decide)).2 ?_
  intro docId data hlast hadded
  have hmem := ChangeCall.mem_of_lastCall hlast
  simp only [calls, mem_cons, not_mem_nil, or_false, reduceCtorEq, false_or,
    ChangeCall.removeEntry.injEq] at hmem
  obtain rfl := hmem.1
  have hlast' : ChangeCall.lastCall calls "x" = some (.addEntry "x" ⟨∅, some "key"⟩) := rfl
  exact absurd (hlast.symm.trans hlast') (by simp)

/-- **A document that is removed after it has been added stays in the view.** -/
theorem not_documentsIn_removedAfterAdded :
    ¬DocumentsIn
      (columnless.applyChanges (columnless.run [])
        (ofCalls "o" [.addEntry "x" ⟨∅, none⟩, .removeEntry "x"]))
      (columnless.applyCalls "o" (columnless.run [])
        [.addEntry "x" ⟨∅, none⟩, .removeEntry "x"]) := by
  intro h
  have hbatch : (columnless.applyChanges (columnless.run [])
      (ofCalls "o" [.addEntry "x" ⟨∅, none⟩, .removeEntry "x"])).entries.toList.any
        (fun entry => !entry.2.isCategory) = true := by decide
  have hreplay : (columnless.applyCalls "o" (columnless.run [])
      [.addEntry "x" ⟨∅, none⟩, .removeEntry "x"]).entries.toList.all
        (·.2.isCategory) = true := by decide
  obtain ⟨⟨p, e⟩, hmem, hdoc⟩ := any_eq_true.mp hbatch
  obtain ⟨p', e', hget', hdoc', -⟩ := h p e (LinkedMap.mem_toList_iff.mp hmem) (by simpa using hdoc)
  have hcategory := all_eq_true.mp hreplay _ (LinkedMap.mem_toList_iff.mpr hget')
  exact absurd (hcategory.symm.trans hdoc') (by simp)

end VirtualView

end MindooDB
