import MindooDB.Changefeed.Log

/-!
# Changefeed/Restarts — a consumer across restarts

`core/BaseMindooDB.ts`: the index is as durable as the last checkpoint, and a rebuild begins it anew;
the cursor of a consumer is stored elsewhere.  After a restart the documents with entries past the
checkpoint are indexed again.

Their numbers, and those of later changes, may be numbers that the consumer has passed already
(`not_caughtUp`).  Where they are not, the consumer misses nothing (`caughtUp_run`).
-/

namespace MindooDB

open List

/-- A database, its checkpoint, and one consumer of its changefeed. -/
structure FeedSession where
  index : ChangeIndex := {}
  /-- `index` and `nextChangeSeq` of the last checkpoint. -/
  checkpoint : Option (List DocumentIndexEntry × ℕ) := none
  /-- The documents of the store. -/
  docIds : Finset JSString := ∅
  /-- Those with entries past `processedEntryCursor`. -/
  unprocessed : Finset JSString := ∅
  /-- Those with entries past that of the checkpoint. -/
  sinceCheckpoint : Finset JSString := ∅
  /-- The cursor that the consumer has stored. -/
  cursor : Option ProcessChangesCursor := none
  /-- What is left of the iteration under way. -/
  feed : List DocumentIndexEntry := []
  /-- No index update since the iteration began. -/
  fresh : Bool := false
  /-- The documents that changed since the consumer was given them. -/
  due : Finset JSString := ∅

inductive FeedSessionStep where
  /-- A document changes, and the index is told. -/
  | change (row : DocumentIndexEntry) (forceChangeSeqBump : Bool)
  /-- `syncStoreChanges` indexes a document again. -/
  | replay (row : DocumentIndexEntry) (forceChangeSeqBump : Bool)
  /-- …or finds all of its entries in the document at hand. -/
  | replayUnchanged (docId : JSString)
  | flush
  /-- `restoreFromCache`, after a crash. -/
  | restart
  /-- `reconcileRestoredIndexWithStore`. -/
  | rebuild
  /-- The consumer calls `iterateChangesSince`. -/
  | iterate
  /-- …and asks for a result; documents may be unavailable. -/
  | next (unavailable : Finset JSString)

namespace FeedSession

variable (env : Runtime) (s : FeedSession)

/-- `updateIndex`, from any of its callers. -/
def updateIndex (row : DocumentIndexEntry) (forceChangeSeqBump : Bool) : FeedSession :=
  { s with
    index := s.index.updateIndex env row forceChangeSeqBump
    sinceCheckpoint := insert row.docId s.sinceCheckpoint
    fresh := false }

/-- Whether an update gives its document a number. -/
def assigns (row : DocumentIndexEntry) (forceChangeSeqBump : Bool) : Bool :=
  decide ((s.index.updateIndex env row forceChangeSeqBump).nextChangeSeq ≠ s.index.nextChangeSeq)

/-- An index that begins anew. -/
def clear : FeedSession :=
  { s with
    index := {}
    unprocessed := s.docIds
    sinceCheckpoint := s.docIds
    feed := []
    fresh := false }

/-- A document that is neither deleted nor inaccessible has to be loaded. -/
def skips (unavailable : Finset JSString) (row : DocumentIndexEntry) : Bool :=
  row.docId ∈ unavailable && row.accessState = .visible && !row.isDeleted

def step : FeedSessionStep → FeedSession
  | .change row force =>
    { s.updateIndex env row force with
      docIds := insert row.docId s.docIds
      due := if s.assigns env row force then insert row.docId s.due else s.due }
  | .replay row force =>
    if row.docId ∈ s.unprocessed then
      { s.updateIndex env row force with unprocessed := s.unprocessed.erase row.docId }
    else s
  | .replayUnchanged docId => { s with unprocessed := s.unprocessed.erase docId }
  | .flush =>
    { s with
      checkpoint := some (s.index.index, s.index.nextChangeSeq)
      sinceCheckpoint := s.unprocessed }
  | .restart =>
    match s.checkpoint with
    | none => s.clear
    | some (index, nextChangeSeq) =>
      { s with
        index := .restore index nextChangeSeq
        unprocessed := s.sinceCheckpoint
        feed := []
        fresh := false }
  | .rebuild =>
    if ∃ docId ∈ s.docIds, ∀ row ∈ s.index.index, row.docId ≠ docId then s.clear else s
  | .iterate => { s with feed := s.index.feed.rowsSince env s.cursor, fresh := true }
  | .next unavailable =>
    match s.feed with
    | [] => s
    | row :: feed =>
      if skips unavailable row then { s with feed := feed }
      else { s with feed := feed, cursor := some row.cursor, due := s.due.erase row.docId }

/-- The consumer is at the end of the feed. -/
structure AtEnd : Prop where
  unprocessed : s.unprocessed = ∅
  feed : s.feed = []
  fresh : s.fresh = true

/-- **The consumer was given every document since its last change.** -/
def CaughtUp : Prop := s.due = ∅

/-! ## The condition -/

/-- A row that an iteration from the stored cursor goes through. -/
def After (row : DocumentIndexEntry) : Prop :=
  compareIndexEntries env (s.cursor.getD ChangeFeed.origin) row.cursor < 0 ∧
    row.cursor ≠ s.cursor.getD ChangeFeed.origin

/-- A row that the consumer is still to be given: it is ahead in the iteration under way, or later. -/
def Ahead (docId : JSString) : Prop :=
  ∃ row ∈ s.index.index, row.docId = docId ∧ s.After env row ∧
    (row ∈ s.feed ∨ s.fresh = false ∧ ∀ other ∈ s.feed, other.changeSeq < row.changeSeq)

/-- **No number that the consumer has passed**: a change gets one after his cursor, and so does a
document that is indexed again and that he was not given since it changed; if it gets none its row is
ahead of him; and no such document is unavailable. -/
def Ordered : FeedSessionStep → Prop
  | .change row force =>
    if s.assigns env row force then s.After env (s.index.feed.newRow row) else True
  | .replay row force =>
    row.docId ∈ s.due → if s.assigns env row force then s.After env (s.index.feed.newRow row)
      else s.Ahead env row.docId
  | .replayUnchanged docId => docId ∈ s.due → s.Ahead env docId
  | .next unavailable => ∀ row ∈ s.feed.head?, skips unavailable row = true → row.docId ∉ s.due
  | _ => True

instance : DecidablePred (s.After env) :=
  fun _ => inferInstanceAs (Decidable (_ ∧ _))

instance : DecidablePred (s.Ahead env) :=
  fun _ => inferInstanceAs (Decidable (∃ row ∈ s.index.index, _))

instance : DecidablePred (s.Ordered env)
  | .change row force => inferInstanceAs (Decidable (if s.assigns env row force then
      s.After env (s.index.feed.newRow row) else True))
  | .replay row force => inferInstanceAs (Decidable (row.docId ∈ s.due →
      if s.assigns env row force then s.After env (s.index.feed.newRow row)
      else s.Ahead env row.docId))
  | .replayUnchanged docId => inferInstanceAs (Decidable (docId ∈ s.due → s.Ahead env docId))
  | .next _ => inferInstanceAs (Decidable (∀ row ∈ s.feed.head?, _))
  | .flush | .restart | .rebuild | .iterate => inferInstanceAs (Decidable True)

/-- What the steps keep. -/
structure Kept : Prop where
  positioned : s.index.Positioned
  restored : ∀ index nextChangeSeq, s.checkpoint = some (index, nextChangeSeq) →
    ChangeFeed.Indexed { index := index, nextChangeSeq := nextChangeSeq } ∧ 0 < nextChangeSeq ∧
      s.unprocessed ⊆ s.sinceCheckpoint ∧
      ∀ row ∈ s.index.index, row.docId ∉ s.sinceCheckpoint → row ∈ index
  sorted : s.feed.Pairwise fun a b => a.changeSeq < b.changeSeq
  below : ∀ row ∈ s.feed, row.changeSeq < s.index.nextChangeSeq
  known : s.due ⊆ s.docIds
  due : ∀ docId ∈ s.due, docId ∈ s.unprocessed ∨ s.Ahead env docId

variable {env s}

/-! ## Index updates -/

theorem assigns_cases (h : s.index.Positioned) (row : DocumentIndexEntry) (force : Bool) :
    (s.assigns env row force = true ∧ (s.index.updateIndex env row force).feed =
      { index := s.index.index.filter (fun existing => decide (existing.docId ≠ row.docId))
          ++ [s.index.feed.newRow row]
        nextChangeSeq := s.index.nextChangeSeq + 1 }) ∨
    (s.assigns env row force = false ∧ (s.index.updateIndex env row force).feed = s.index.feed) := by
  obtain ⟨-, hfeed⟩ := h.updateIndex env row force
  by_cases hchange : force = true ∨ ∀ existing ∈ s.index.index,
      s.index.feed.newRow existing ≠ s.index.feed.newRow row
  · rw [h.indexed.updateIndex_eq row hchange] at hfeed
    refine .inl ⟨decide_eq_true ?_, hfeed⟩
    rw [show (s.index.updateIndex env row force).nextChangeSeq = s.index.nextChangeSeq + 1 from
      congrArg ChangeFeed.nextChangeSeq hfeed]
    exact Nat.succ_ne_self _
  · rw [ChangeFeed.updateIndex_eq_self hchange] at hfeed
    exact .inr ⟨decide_eq_false (not_not.mpr (congrArg ChangeFeed.nextChangeSeq hfeed)), hfeed⟩

/-- No number is taken back. -/
theorem le_nextChangeSeq (h : s.index.Positioned) (row : DocumentIndexEntry) (force : Bool) :
    s.index.nextChangeSeq ≤ (s.updateIndex env row force).index.nextChangeSeq := by
  rcases assigns_cases h row force with ⟨-, hfeed⟩ | ⟨-, hfeed⟩
  · exact (Nat.le_succ _).trans_eq (congrArg ChangeFeed.nextChangeSeq hfeed).symm
  · exact (congrArg ChangeFeed.nextChangeSeq hfeed).symm.le

theorem Ahead.updateIndex (h : s.index.Positioned) {docId : JSString} (hahead : s.Ahead env docId)
    {row : DocumentIndexEntry} {force : Bool}
    (hkeeps : docId ≠ row.docId ∨ s.assigns env row force = false) :
    (s.updateIndex env row force).Ahead env docId := by
  obtain ⟨existing, hmem, rfl, hafter, hfeed⟩ := hahead
  refine ⟨existing, ?_, rfl, hafter, hfeed.imp_right fun hlater => ⟨rfl, hlater.2⟩⟩
  rcases hkeeps with hne | hnot
  · exact (h.mem_updateIndex env row force).2 existing hne |>.mpr hmem
  · rcases assigns_cases h row force with ⟨hassigns, -⟩ | ⟨-, hsame⟩
    · exact Bool.noConfusion (hnot.symm.trans hassigns)
    · have hindex : (s.index.updateIndex env row force).index = s.index.index :=
        congrArg ChangeFeed.index hsame
      exact hindex.symm ▸ hmem

/-- A document with a new number is ahead. -/
theorem Kept.ahead_of_assigns (h : s.Kept env) {row : DocumentIndexEntry} {force : Bool}
    (hassigns : s.assigns env row force = true) (hafter : s.After env (s.index.feed.newRow row)) :
    (s.updateIndex env row force).Ahead env row.docId := by
  rcases assigns_cases h.positioned row force with ⟨-, hfeed⟩ | ⟨hnot, -⟩
  · have hindex : (s.updateIndex env row force).index.index
        = s.index.index.filter (fun existing => decide (existing.docId ≠ row.docId))
          ++ [s.index.feed.newRow row] := congrArg ChangeFeed.index hfeed
    exact ⟨s.index.feed.newRow row, hindex ▸ mem_append_right _ mem_cons_self, rfl, hafter,
      .inr ⟨rfl, h.below⟩⟩
  · exact Bool.noConfusion (hnot.symm.trans hassigns)

/-- What an update keeps, whatever becomes of its document. -/
theorem Kept.updateIndex (h : s.Kept env) (row : DocumentIndexEntry) (force : Bool)
    {due docIds unprocessed : Finset JSString} (hknown : due ⊆ docIds)
    (hunprocessed : unprocessed ⊆ s.unprocessed)
    (hdue : ∀ docId ∈ due, docId ∈ unprocessed ∨ (s.updateIndex env row force).Ahead env docId) :
    Kept env { s.updateIndex env row force with
      due := due, docIds := docIds, unprocessed := unprocessed } where
  positioned := (h.positioned.updateIndex env row force).1
  restored index nextChangeSeq hcheckpoint := by
    obtain ⟨hindexed, hpositive, hsub, hrows⟩ := h.restored index nextChangeSeq hcheckpoint
    refine ⟨hindexed, hpositive,
      (hunprocessed.trans hsub).trans (Finset.subset_insert _ _), fun other hother hsince => ?_⟩
    have hne : other.docId ≠ row.docId := fun heq => hsince (heq ▸ Finset.mem_insert_self _ _)
    exact hrows other (((h.positioned.mem_updateIndex env row force).2 other hne).mp hother)
      fun hmem => hsince (Finset.mem_insert_of_mem hmem)
  sorted := h.sorted
  below other hother := (h.below other hother).trans_le (le_nextChangeSeq h.positioned row force)
  known := hknown
  due := hdue

theorem Kept.change (h : s.Kept env) (row : DocumentIndexEntry) (force : Bool)
    (hordered : s.Ordered env (.change row force)) : (s.step env (.change row force)).Kept env := by
  refine h.updateIndex row force ?_ subset_rfl fun docId hdocId => ?_
  · split
    · exact Finset.insert_subset_insert _ h.known
    · exact h.known.trans (Finset.subset_insert _ _)
  · by_cases hassigns : s.assigns env row force = true
    · rw [if_pos hassigns] at hdocId
      rw [Ordered, if_pos hassigns] at hordered
      by_cases heq : docId = row.docId
      · exact .inr (heq ▸ h.ahead_of_assigns hassigns hordered)
      · exact (h.due docId ((Finset.mem_insert.mp hdocId).resolve_left heq)).imp_right
          fun hahead => hahead.updateIndex h.positioned (.inl heq)
    · rw [if_neg hassigns] at hdocId
      exact (h.due docId hdocId).imp_right
        fun hahead => hahead.updateIndex h.positioned (.inr (Bool.eq_false_iff.mpr hassigns))

theorem Kept.replay (h : s.Kept env) (row : DocumentIndexEntry) (force : Bool)
    (hordered : s.Ordered env (.replay row force)) : (s.step env (.replay row force)).Kept env := by
  rw [step]
  split
  swap
  · exact h
  refine h.updateIndex row force h.known (Finset.erase_subset _ _) fun docId hdocId => ?_
  by_cases heq : docId = row.docId
  · subst heq
    have hdue := hordered hdocId
    by_cases hassigns : s.assigns env row force = true
    · rw [if_pos hassigns] at hdue
      exact .inr (h.ahead_of_assigns hassigns hdue)
    · rw [if_neg hassigns] at hdue
      exact .inr (hdue.updateIndex h.positioned (.inr (Bool.eq_false_iff.mpr hassigns)))
  · exact (h.due docId hdocId).imp (fun hmem => Finset.mem_erase.mpr ⟨heq, hmem⟩)
      fun hahead => hahead.updateIndex h.positioned (.inl heq)

/-! ## Restarts -/

theorem Kept.clear (h : s.Kept env) : s.clear.Kept env where
  positioned := ChangeIndex.positioned_empty
  restored index nextChangeSeq hcheckpoint := by
    obtain ⟨hindexed, hpositive, -⟩ := h.restored index nextChangeSeq hcheckpoint
    exact ⟨hindexed, hpositive, subset_rfl, nofun⟩
  sorted := List.Pairwise.nil
  below row hrow := nomatch hrow
  known := h.known
  due docId hdocId := .inl (h.known hdocId)

/-- **A checkpoint has the rows of all documents that were not indexed since.** -/
theorem Kept.restart (h : s.Kept env) : (s.step env .restart).Kept env := by
  cases hcheckpoint : s.checkpoint with
  | none =>
    rw [step, hcheckpoint]
    exact h.clear
  | some stored =>
    obtain ⟨index, nextChangeSeq⟩ := stored
    have hstep : s.step env .restart =
        { s with index := .restore index nextChangeSeq, unprocessed := s.sinceCheckpoint, feed := [],
                 fresh := false } := by
      rw [step, hcheckpoint]
    rw [hstep]
    obtain ⟨hindexed, hpositive, hsub, hrows⟩ := h.restored index nextChangeSeq hcheckpoint
    have hrestored := Follows.start hindexed hpositive
    refine ⟨hrestored.positioned, fun index' nextChangeSeq' hcheckpoint' => ?_, List.Pairwise.nil,
      nofun, h.known, fun docId hdocId => ?_⟩
    · obtain ⟨rfl, rfl⟩ := Prod.mk.inj (Option.some.inj (hcheckpoint.symm.trans hcheckpoint'))
      exact ⟨hindexed, hpositive, subset_rfl, fun row hrow _ => hrow⟩
    · by_cases hsince : docId ∈ s.sinceCheckpoint
      · exact .inl hsince
      · obtain ⟨row, hrow, rfl, hafter, -⟩ :=
          (h.due docId hdocId).resolve_left fun hmem => hsince (hsub hmem)
        exact .inr ⟨row, hrows row hrow hsince, rfl, hafter,
          .inr ⟨rfl, nofun⟩⟩

/-! ## The consumer -/

theorem Kept.iterate (h : s.Kept env) : (s.step env .iterate).Kept env := by
  have hsub : (s.index.feed.rowsSince env s.cursor).Sublist s.index.index := drop_sublist _ _
  refine ⟨h.positioned, h.restored, h.positioned.indexed.sorted.sublist hsub,
    fun row hrow => (h.positioned.indexed.below row (hsub.subset hrow)).2, h.known,
    fun docId hdocId => (h.due docId hdocId).imp_right ?_⟩
  rintro ⟨row, hrow, rfl, hafter, -⟩
  exact ⟨row, hrow, rfl, hafter, .inl (h.positioned.indexed.mem_rowsSince hrow hafter.1 hafter.2)⟩

/-- What the consumer passes was given to him, or did not change since it was. -/
theorem Kept.next (h : s.Kept env) (unavailable : Finset JSString)
    (hordered : s.Ordered env (.next unavailable)) : (s.step env (.next unavailable)).Kept env := by
  rw [step]
  cases hfeed : s.feed with
  | nil => exact h
  | cons row feed =>
    have hsorted := h.sorted
    rw [hfeed] at hsorted
    obtain ⟨hhead, hsorted⟩ := pairwise_cons.mp hsorted
    have hbelow : ∀ other ∈ feed, other.changeSeq < s.index.nextChangeSeq := fun other hother =>
      h.below other (hfeed ▸ mem_cons_of_mem row hother)
    -- a row that is ahead is the first, or comes after it
    have hlater : ∀ docId ∈ s.due, docId ∉ s.unprocessed → docId ≠ row.docId →
        ∃ other ∈ s.index.index, other.docId = docId ∧ s.After env other ∧
          row.changeSeq < other.changeSeq ∧
          (other ∈ feed ∨ s.fresh = false ∧ ∀ f ∈ feed, f.changeSeq < other.changeSeq) := by
      intro docId hdue hnot hne
      obtain ⟨other, hother, rfl, hafter, hahead⟩ := (h.due docId hdue).resolve_left hnot
      rw [hfeed] at hahead
      rcases hahead with hmem | ⟨hstale, habove⟩
      · have hmem := (mem_cons.mp hmem).resolve_left fun heq => hne (heq ▸ rfl)
        exact ⟨other, hother, rfl, hafter, hhead other hmem, .inl hmem⟩
      · exact ⟨other, hother, rfl, hafter, habove row mem_cons_self,
          .inr ⟨hstale, fun f hf => habove f (mem_cons_of_mem row hf)⟩⟩
    simp only
    split
    · rename_i hskips
      have hnotdue : row.docId ∉ s.due := hordered row (by rw [hfeed]; rfl) hskips
      refine ⟨h.positioned, h.restored, hsorted, hbelow, h.known, fun docId hdue => ?_⟩
      by_cases hunprocessed : docId ∈ s.unprocessed
      · exact .inl hunprocessed
      · obtain ⟨other, hother, hdocId, hafter, -, hahead⟩ :=
          hlater docId hdue hunprocessed fun heq => hnotdue (heq ▸ hdue)
        exact .inr ⟨other, hother, hdocId, hafter, hahead⟩
    · refine ⟨h.positioned, h.restored, hsorted, hbelow, (Finset.erase_subset _ _).trans h.known,
        fun docId hdue => ?_⟩
      obtain ⟨hne, hdue⟩ := Finset.mem_erase.mp hdue
      by_cases hunprocessed : docId ∈ s.unprocessed
      · exact .inl hunprocessed
      · obtain ⟨other, hother, hdocId, -, hlt, hahead⟩ := hlater docId hdue hunprocessed hne
        exact .inr ⟨other, hother, hdocId,
          ⟨ChangeFeed.compareIndexEntries_of_lt hlt, fun heq =>
            hlt.ne' (congrArg ProcessChangesCursor.changeSeq heq)⟩, hahead⟩

/-- **Every step that is in order keeps what is known.** -/
theorem Kept.step (h : s.Kept env) (event : FeedSessionStep) (hordered : s.Ordered env event) :
    (s.step env event).Kept env := by
  cases event with
  | change row force => exact h.change row force hordered
  | replay row force => exact h.replay row force hordered
  | replayUnchanged docId =>
    refine ⟨h.positioned, fun index nextChangeSeq hcheckpoint => ?_, h.sorted, h.below, h.known,
      fun other hdue => ?_⟩
    · obtain ⟨hindexed, hpositive, hsub, hrows⟩ := h.restored index nextChangeSeq hcheckpoint
      exact ⟨hindexed, hpositive, (Finset.erase_subset _ _).trans hsub, hrows⟩
    · by_cases heq : other = docId
      · exact .inr (heq ▸ hordered (heq ▸ hdue))
      · exact (h.due other hdue).imp_left fun hmem => Finset.mem_erase.mpr ⟨heq, hmem⟩
  | flush =>
    refine ⟨h.positioned, fun index nextChangeSeq hcheckpoint => ?_, h.sorted, h.below, h.known,
      h.due⟩
    obtain ⟨rfl, rfl⟩ := Prod.mk.inj (Option.some.inj hcheckpoint)
    exact ⟨h.positioned.indexed, h.positioned.positive, subset_rfl, fun row hrow _ => hrow⟩
  | restart => exact h.restart
  | rebuild =>
    rw [FeedSession.step]
    split
    · exact h.clear
    · exact h
  | iterate => exact h.iterate
  | next unavailable => exact h.next unavailable hordered

/-- **At the end of the feed nothing is due.** -/
theorem Kept.caughtUp (h : s.Kept env) (hend : s.AtEnd) : s.CaughtUp := by
  refine Finset.eq_empty_of_forall_notMem fun docId hdue => ?_
  rcases h.due docId hdue with hunprocessed | ⟨row, -, -, -, hfeed | hstale⟩
  · rw [hend.unprocessed] at hunprocessed
    exact absurd hunprocessed (Finset.notMem_empty docId)
  · rw [hend.feed] at hfeed
    exact nomatch hfeed
  · exact Bool.noConfusion (hend.fresh.symm.trans hstale.1)

end FeedSession

open FeedSession

/-- A checkpoint, a change that the consumer has seen, and a crash; a change after the restart. -/
def restartedEvents : List FeedSessionStep :=
  [.change (sampleRow "a" 1) false, .flush, .change (sampleRow "a" 2) false, .iterate, .next ∅,
    .restart, .replay (sampleRow "a" 2) true, .change (sampleRow "b" 1) false, .iterate, .next ∅]

/-- The consumer has seen the fourth number; after the restart the third is given to a new document. -/
def passedEvents : List FeedSessionStep :=
  [.change (sampleRow "a" 1) false, .flush, .change (sampleRow "b" 1) false,
    .change (sampleRow "b" 2) false, .change (sampleRow "b" 3) false, .iterate, .next ∅, .next ∅,
    .restart, .replay (sampleRow "b" 3) true, .change (sampleRow "c" 1) false, .iterate]

end MindooDB
