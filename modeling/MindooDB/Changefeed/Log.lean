import MindooDB.Changefeed.Index
import MindooDB.View.Runs

/-!
# Changefeed/Log — what the readers of one session are given

For its readers a session is a log of changes, each with the next number.  The index is the last
change of each document (`Follows`), and a reader who stands at a change is given the last of the
later ones of each document (`Follows.iterate_after`).
-/

namespace MindooDB

open List

/-- What happens to an index: a document is written, or its position looked up. -/
inductive IndexEvent where
  | update (row : DocumentIndexEntry) (forceChangeSeqBump : Bool)
  | lookup (docId : JSString)

namespace ChangeIndex

def step (env : Runtime) (s : ChangeIndex) : IndexEvent → ChangeIndex
  | .update row forceChangeSeqBump => s.updateIndex env row forceChangeSeqBump
  | .lookup docId => (s.getDocIndexPosition docId).2

end ChangeIndex

/-- **The changes of a session**, and the number of the next one. -/
structure ChangeLog where
  changes : List DocumentIndexEntry
  nextChangeSeq : ℕ

namespace ChangeLog

/-- The present state of the documents. -/
def latest (log : ChangeLog) : List DocumentIndexEntry := latestBy (·.docId) log.changes

/-- A document is written: a change, unless it is the state that the document has. -/
def record (log : ChangeLog) : IndexEvent → ChangeLog
  | .update row forceChangeSeqBump =>
    if !forceChangeSeqBump && log.latest.any fun existing =>
        decide (existing.docId = row.docId) && ChangeIndex.sameState existing row then log
    else
      { changes := log.changes ++ [{ row with changeSeq := log.nextChangeSeq }]
        nextChangeSeq := log.nextChangeSeq + 1 }
  | .lookup _ => log

/-- The numbers count the changes. -/
structure Numbered (log : ChangeLog) : Prop where
  sorted : log.changes.Pairwise fun a b => a.changeSeq < b.changeSeq
  below : ∀ change ∈ log.changes, 0 < change.changeSeq ∧ change.changeSeq < log.nextChangeSeq
  positive : 0 < log.nextChangeSeq

variable {log : ChangeLog}

theorem Numbered.record (h : log.Numbered) (event : IndexEvent) : (log.record event).Numbered := by
  cases event with
  | lookup docId => exact h
  | update row force =>
    rw [ChangeLog.record]
    split
    · exact h
    · refine ⟨?_, fun change hchange => ?_, Nat.succ_pos _⟩
      · refine pairwise_append.mpr ⟨h.sorted, pairwise_singleton _ _, fun a ha b hb => ?_⟩
        rw [mem_singleton.mp hb]
        exact (h.below a ha).2
      · rcases mem_append.mp hchange with hold | hnew
        · exact ⟨(h.below change hold).1, (h.below change hold).2.trans (Nat.lt_succ_self _)⟩
        · rw [mem_singleton.mp hnew]
          exact ⟨h.positive, Nat.lt_succ_self _⟩

/-- A change is recorded. -/
theorem record_of_change {feed : ChangeFeed} {row : DocumentIndexEntry} {force : Bool}
    (hchange : force = true ∨ ∀ existing ∈ log.latest, feed.newRow existing ≠ feed.newRow row) :
    log.record (.update row force) =
      { changes := log.changes ++ [{ row with changeSeq := log.nextChangeSeq }]
        nextChangeSeq := log.nextChangeSeq + 1 } := by
  rw [ChangeLog.record, if_neg]
  rcases hchange with rfl | hchange
  · simp
  · simpa [ChangeIndex.newRow_eq_newRow_iff] using fun _ => hchange

/-- The present state is not. -/
theorem record_of_same {feed : ChangeFeed} {row : DocumentIndexEntry} {force : Bool}
    (hsame : ¬(force = true ∨ ∀ existing ∈ log.latest, feed.newRow existing ≠ feed.newRow row)) :
    log.record (.update row force) = log := by
  rw [ChangeLog.record, if_pos]
  push Not at hsame
  simpa [ChangeIndex.newRow_eq_newRow_iff] using hsame

end ChangeLog

/-- **An index that stands for a log**: it has the last change of each document. -/
structure Follows (s : ChangeIndex) (log : ChangeLog) : Prop where
  positioned : s.Positioned
  numbered : log.Numbered
  index : s.index = log.latest
  next : s.nextChangeSeq = log.nextChangeSeq

namespace Follows

variable {env : Runtime} {s : ChangeIndex} {log : ChangeLog}

variable (env) in
/-- **One step of the index is one of the log.** -/
theorem step (h : Follows s log) (event : IndexEvent) :
    Follows (s.step env event) (log.record event) := by
  have hnumbered := h.numbered.record event
  cases event with
  | lookup docId =>
    obtain ⟨hpositioned, hfeed, -⟩ := h.positioned.getDocIndexPosition docId
    exact ⟨hpositioned, h.numbered, (congrArg ChangeFeed.index hfeed).trans h.index,
      (congrArg ChangeFeed.nextChangeSeq hfeed).trans h.next⟩
  | update row force =>
    obtain ⟨hpositioned, hfeed⟩ := h.positioned.updateIndex env row force
    by_cases hchange : force = true ∨ ∀ existing ∈ s.index,
        s.feed.newRow existing ≠ s.feed.newRow row
    · rw [h.positioned.indexed.updateIndex_eq row hchange] at hfeed
      rw [ChangeLog.record_of_change (h.index ▸ hchange)] at hnumbered ⊢
      refine ⟨hpositioned, hnumbered, (congrArg ChangeFeed.index hfeed).trans ?_,
        (congrArg ChangeFeed.nextChangeSeq hfeed).trans (congrArg (· + 1) h.next)⟩
      rw [ChangeLog.latest, latestBy_append_singleton, ← h.next, ← ChangeLog.latest, ← h.index]
      rfl
    · rw [ChangeFeed.updateIndex_eq_self hchange] at hfeed
      rw [ChangeLog.record_of_same (h.index ▸ hchange)] at hnumbered ⊢
      exact ⟨hpositioned, hnumbered, (congrArg ChangeFeed.index hfeed).trans h.index,
        (congrArg ChangeFeed.nextChangeSeq hfeed).trans h.next⟩

/-- The numbers of an index leave room for it. -/
theorem length_lt_nextChangeSeq {feed : ChangeFeed} (h : feed.Indexed)
    (hnext : 0 < feed.nextChangeSeq) : feed.index.length < feed.nextChangeSeq := by
  have hnodup : (feed.index.map (·.changeSeq)).Nodup :=
    pairwise_map.mpr (h.sorted.imp fun hlt => hlt.ne)
  have hsub : feed.index.map (·.changeSeq) ⊆ List.range' 1 (feed.nextChangeSeq - 1) := by
    intro seq hseq
    obtain ⟨row, hrow, rfl⟩ := mem_map.mp hseq
    have hbelow := h.below row hrow
    rw [mem_range'_1]
    omega
  have hle := (subperm_of_subset hnodup hsub).length_le
  rw [length_map, length_range'] at hle
  omega

/-- The log of a session that starts from an index. -/
theorem start {index : List DocumentIndexEntry} {nextChangeSeq : ℕ}
    (hindexed : ChangeFeed.Indexed { index := index, nextChangeSeq := nextChangeSeq })
    (hnext : 0 < nextChangeSeq) :
    Follows (.restore index nextChangeSeq) ⟨index, nextChangeSeq⟩ := by
  have hseq : ChangeIndex.nextChangeSeq (.restore index nextChangeSeq) = nextChangeSeq :=
    if_neg fun h => (length_lt_nextChangeSeq hindexed hnext).not_ge h.2
  have hkeys : ((index.zipIdx.map fun row => (row.1.docId, row.2)).map Prod.fst).Nodup := by
    have hfst : (index.zipIdx.map Prod.fst).map (·.docId) = index.map (·.docId) := by
      rw [zipIdx_map_fst]
    rw [map_map] at hfst ⊢
    exact hfst ▸ hindexed.distinct
  have hlookup : ∀ docId pos, (ChangeIndex.restore index nextChangeSeq).indexLookup.get? docId
      = some pos ↔ ∃ row, index[pos]? = some row ∧ row.docId = docId := by
    intro docId pos
    rw [ChangeIndex.restore, LinkedMap.get?_ofList hkeys]
    simp [mem_map, mk_mem_zipIdx_iff_getElem?]
  refine ⟨⟨?_, hseq.symm ▸ hnext, fun docId => ?_, fun pos row hrow _ => ?_⟩,
    ⟨hindexed.sorted, hindexed.below, hnext⟩, ?_, hseq⟩
  · refine ⟨hindexed.sorted, fun row hrow => ?_, hindexed.distinct⟩
    change 0 < row.changeSeq ∧ row.changeSeq < (ChangeIndex.restore index nextChangeSeq).nextChangeSeq
    rw [hseq]
    exact hindexed.below row hrow
  · simp only [hlookup]
    constructor
    · rintro ⟨pos, row, hrow, hdocId⟩
      exact ⟨row, mem_of_getElem? hrow, hdocId⟩
    · rintro ⟨row, hrow, hdocId⟩
      obtain ⟨pos, hpos⟩ := mem_iff_getElem?.mp hrow
      exact ⟨pos, row, hpos, hdocId⟩
  · exact (hlookup _ _).mpr ⟨row, hrow, rfl⟩
  · exact (latestBy_eq_self hindexed.distinct).symm

variable (env) in
theorem run (h : Follows s log) (events : List IndexEvent) :
    Follows (Run.run (ChangeIndex.step env) s events) (Run.run ChangeLog.record log events) := by
  induction events generalizing s log with
  | nil => exact h
  | cons event events ih => exact ih (h.step env event)

/-! ## What the readers are given -/

/-- **A reader who stands at a change** is given the last of the later ones of each document. -/
theorem iterate_after (h : Follows s log) {before after : List DocumentIndexEntry}
    {change : DocumentIndexEntry} (hlog : log.changes = before ++ change :: after)
    (idPrefix : Option JSString) :
    s.iterateChangeMetadataSince env (some change.cursor) idPrefix
      = ((latestBy (·.docId) after).filter fun row => listed idPrefix row.docId).map (·.summary) := by
  have hsorted := h.numbered.sorted
  rw [hlog] at hsorted
  obtain ⟨-, hafter, hbefore⟩ := pairwise_append.mp hsorted
  have hmarks : s.feed.Marks change.cursor := by
    have hchange : change ∈ log.changes := by simp [hlog]
    refine ⟨(h.numbered.below change hchange).2.trans_eq h.next.symm, fun row hrow hseq => ?_⟩
    have hindex : s.feed.index = log.latest := h.index
    have hmem : row ∈ log.changes := mem_of_mem_latestBy (hindex ▸ hrow)
    have hnodup : (log.changes.map (·.changeSeq)).Nodup :=
      pairwise_map.mpr (h.numbered.sorted.imp fun hlt => hlt.ne)
    exact congrArg _ (inj_on_of_nodup_map hnodup hmem hchange hseq)
  have hdrop : s.feed.index.drop (s.feed.getStartIndexForCursor env change.cursor) = _ :=
    h.positioned.indexed.drop_eq hmarks
  have hsplit : (before ++ [change]) ++ after = log.changes := by simp [hlog]
  have hlatest : s.index.filter (fun row => decide (change.cursor.changeSeq < row.changeSeq))
      = latestBy (·.docId) after := by
    rw [h.index, ChangeLog.latest, ← hsplit]
    refine filter_latestBy_append (fun row hrow => ?_) fun row hrow => ?_
    · rcases mem_append.mp hrow with hrow | hrow
      · exact decide_eq_false (hbefore row hrow change mem_cons_self).not_gt
      · rw [mem_singleton.mp hrow]
        exact decide_eq_false (lt_irrefl _)
    · exact decide_eq_true (rel_of_pairwise_cons hafter hrow)
  rw [ChangeIndex.iterateChangeMetadataSince, Option.getD_some]
  change ((s.feed.index.drop _).filter _).map _ = _
  rw [hdrop]
  change ((s.index.filter _).filter _).map _ = _
  rw [hlatest]

/-- One who stands nowhere is given the present state of all. -/
theorem iterate_none (h : Follows s log) (idPrefix : Option JSString) :
    s.iterateChangeMetadataSince env none idPrefix
      = (log.latest.filter fun row => listed idPrefix row.docId).map (·.summary) := by
  have hmarks := h.positioned.indexed.marks_origin h.positioned.positive
  have hall : s.index.filter (fun row => decide (ChangeFeed.origin.changeSeq < row.changeSeq))
      = s.index :=
    filter_eq_self.mpr fun row hrow => decide_eq_true (h.positioned.indexed.below row hrow).1
  have hdrop : s.feed.index.drop (s.feed.getStartIndexForCursor env ChangeFeed.origin) = _ :=
    h.positioned.indexed.drop_eq hmarks
  change s.index.drop _ = s.index.filter _ at hdrop
  rw [ChangeIndex.iterateChangeMetadataSince, Option.getD_none, hdrop, hall, h.index]

/-- **The newest cursor** stands at the last change. -/
theorem getLatestChangeCursor_eq (h : Follows s log) :
    s.getLatestChangeCursor = log.changes.getLast?.map (·.cursor) := by
  rw [ChangeIndex.getLatestChangeCursor, h.index, ChangeLog.latest, getLast?_latestBy]

end Follows

/-- **The changefeed of one session.**  Numbers increase, positions are right, counts are those of
the iterations, and an iteration since a change hands out the last later change of each document. -/
theorem changeIndex_run (env : Runtime) (index : List DocumentIndexEntry) (nextChangeSeq : ℕ)
    (hindexed : ChangeFeed.Indexed { index := index, nextChangeSeq := nextChangeSeq })
    (hnext : 0 < nextChangeSeq) (events : List IndexEvent) :
    let s := Run.run (ChangeIndex.step env) (.restore index nextChangeSeq) events
    let log := Run.run ChangeLog.record ⟨index, nextChangeSeq⟩ events
    s.index.Pairwise (fun a b => a.changeSeq < b.changeSeq)
      ∧ (s.index.map (·.docId)).Nodup
      ∧ (∀ docId pos, (s.getDocIndexPosition docId).1 = some pos ↔
          ∃ row, s.index[pos]? = some row ∧ row.docId = docId)
      ∧ (∀ row ∈ s.index, row.changeSeq < s.nextChangeSeq)
      ∧ (∀ cursor idPrefix, s.countChangesSince env cursor idPrefix
          = (s.iterateChangeMetadataSince env cursor idPrefix).length)
      ∧ s.getLatestChangeCursor = log.changes.getLast?.map (·.cursor)
      ∧ ∀ idPrefix, s.iterateChangeMetadataSince env none idPrefix
            = ((latestBy (·.docId) log.changes).filter fun row =>
                listed idPrefix row.docId).map (·.summary)
          ∧ ∀ before change after, log.changes = before ++ change :: after →
            s.iterateChangeMetadataSince env (some change.cursor) idPrefix
              = ((latestBy (·.docId) after).filter fun row =>
                  listed idPrefix row.docId).map (·.summary) := by
  have h := (Follows.start hindexed hnext).run env events
  refine ⟨h.positioned.indexed.sorted, h.positioned.indexed.distinct, fun docId => ?_,
    fun row hrow => (h.positioned.indexed.below row hrow).2, fun cursor idPrefix => ?_,
    h.getLatestChangeCursor_eq, fun idPrefix => ⟨h.iterate_none idPrefix, ?_⟩⟩
  · exact (h.positioned.getDocIndexPosition docId).2.2
  · exact (ChangeIndex.length_iterateChangeMetadataSince env _ cursor idPrefix).symm
  · exact fun before change after hlog => h.iterate_after hlog idPrefix

/-- A document that was written, at a time. -/
def sampleRow (docId : JSString) (lastModified : ℚ) : DocumentIndexEntry where
  docId := docId
  changeSeq := 0
  lastModified := lastModified
  isDeleted := false
  decryptionKeyId := "default"
  accessState := .visible

/-- Two documents are written, and the first once more. -/
def sampleEvents : List IndexEvent :=
  [.update (sampleRow "a" 1) false, .update (sampleRow "b" 1) false, .lookup "b",
    .update (sampleRow "a" 2) false, .update (sampleRow "a" 2) false, .lookup "b"]

/-- A reader who has seen the first two changes is given the third. -/
theorem changeIndex_run_sampleEvents :
    (Run.run (ChangeIndex.step plainRuntime) (.restore [] 1) sampleEvents).iterateChangeMetadataSince
        plainRuntime (some ⟨2, "b"⟩) none
      = [⟨"a", 2, false, ⟨3, "a"⟩⟩] := by
  obtain ⟨-, -, -, -, -, -, hiterate⟩ := changeIndex_run plainRuntime [] 1
    ⟨List.Pairwise.nil, by simp, nodup_nil⟩ Nat.one_pos sampleEvents
  exact (hiterate none).2 [{ sampleRow "a" 1 with changeSeq := 1 }]
    { sampleRow "b" 1 with changeSeq := 2 } [{ sampleRow "a" 2 with changeSeq := 3 }]
    (by decide +kernel)

end MindooDB
