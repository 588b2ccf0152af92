import MindooDB.Sync.Pull
import MindooDB.View.Runs

/-!
# Sync/Shown — what a completed pull shows

Processing brings the rows of the documents with new entries up to date and leaves the others, so a
database that has processed its store shows all of it (`Current.syncStoreChanges`).
-/

namespace MindooDB

open List LocalDatabase

namespace ChangeIndex

variable {env : Runtime} {s : ChangeIndex} {row : DocumentIndexEntry}

/-- A row that can be read is written as it is. -/
theorem Positioned.exists_row (h : s.Positioned) {force : Bool}
    (hvisible : row.accessState = .visible) :
    ∃ written ∈ (s.updateIndex env row force).index, written.docId = row.docId
      ∧ written.accessState = .visible ∧ written.isDeleted = row.isDeleted := by
  obtain ⟨⟨written, hwritten, hdocId, hstate⟩, -⟩ := h.mem_updateIndex env row force
  simp only [sameState, Bool.and_eq_true, decide_eq_true_eq] at hstate
  exact ⟨written, hwritten, hdocId, hstate.1.1.2.trans hvisible, hstate.1.1.1.1.2⟩

end ChangeIndex

namespace LocalDatabase

variable (rt : PullRuntime) (s : LocalDatabase)

/-- **A document that can be read**: whichever stretch of its entries in the store is new to a
processing, the entry that stands for it names a key that is there. -/
def Readable (docId : JSString) : Prop :=
  ∀ batch, batch <:+: s.entriesOf docId → ∀ representativeEntry rest,
    batch.filter isLifecycleEntry = representativeEntry :: rest →
    rt.hasDecryptionKey (representativeEntry :: rest) representativeEntry.decryptionKeyId = true

/-- **The row of a document tells its deleted state.** -/
def HasRow (index : ChangeIndex) (docId : JSString) : Prop :=
  ∃ row ∈ index.index, row.docId = docId ∧ row.accessState = .visible
    ∧ row.isDeleted = isDeletedFrom rt (s.entriesOf docId)

/-- A document is in the store. -/
def Holds (docId : JSString) : Prop := ∃ e ∈ s.store, e.docId = docId ∧ isLifecycleEntry e = true

/-- **A pull shows everything**: all entries are processed, and the index has every document. -/
structure ShowsAll : Prop where
  processed : s.processed = s.store.length
  rows : ∀ docId, s.Readable rt docId → s.Holds docId → s.HasRow rt s.index docId

/-- The index has every document without new entries. -/
structure Current : Prop where
  positioned : s.index.Positioned
  le : s.processed ≤ s.store.length
  rows : ∀ docId, s.Readable rt docId → s.Holds docId →
    (∀ e ∈ s.store.drop s.processed, e.docId = docId → isLifecycleEntry e = false) →
    s.HasRow rt s.index docId

variable {rt s} {index : ChangeIndex} {docId : JSString} {batch : List PulledEntry}

/-- What the index tells of a document does not depend on the entries that do not replay. -/
theorem isDeletedFrom_congr {entries entries' : List PulledEntry}
    (h : entries.filter isPulledReplay = entries'.filter isPulledReplay) :
    isDeletedFrom rt entries = isDeletedFrom rt entries' := by
  have hreplay : ∀ l : List PulledEntry, (l.map (·.toStoreEntryMetadata)).filter isReplayEntry
      = (l.filter isPulledReplay).map (·.toStoreEntryMetadata) := fun l => by
    rw [filter_map]
    rfl
  rw [isDeletedFrom, isDeletedFrom, computeIsDeletedFromMetadata, computeIsDeletedFromMetadata,
    hreplay, hreplay, h]

/-! ## One document -/

section ProcessDocument

variable {coldSync : Bool} (hpositioned : index.Positioned)
  (hbatch : batch <:+: s.entriesOf docId)
  (hcold : coldSync = true → batch = s.entriesOf docId)

include hpositioned

variable (rt s coldSync docId batch) in
theorem positioned_processDocument :
    (s.processDocument rt coldSync index docId batch).Positioned := by
  rw [processDocument]
  cases batch.filter isLifecycleEntry with
  | nil => exact hpositioned
  | cons representativeEntry rest =>
    simp only
    split
    · exact (hpositioned.updateIndex _ _ _).1
    · obtain ⟨hfound, -, -⟩ := hpositioned.getDocIndexPosition docId
      generalize index.getDocIndexPosition docId = found at hfound ⊢
      cases found.1.bind fun pos => found.2.index[pos]? with
      | none => exact hfound
      | some existing =>
        simp only
        split
        · exact (hfound.updateIndex _ _ _).1
        · exact hfound

/-- The rows of the other documents stay. -/
theorem mem_processDocument_of_ne {other : DocumentIndexEntry} (hne : other.docId ≠ docId) :
    other ∈ (s.processDocument rt coldSync index docId batch).index ↔ other ∈ index.index := by
  rw [processDocument]
  cases batch.filter isLifecycleEntry with
  | nil => exact Iff.rfl
  | cons representativeEntry rest =>
    simp only
    split
    · exact (hpositioned.mem_updateIndex _ _ _).2 other hne
    · obtain ⟨hfound, hfeed, -⟩ := hpositioned.getDocIndexPosition docId
      generalize index.getDocIndexPosition docId = found at hfound hfeed ⊢
      have hindex : found.2.index = index.index := congrArg ChangeFeed.index hfeed
      cases found.1.bind fun pos => found.2.index[pos]? with
      | none => simp only [hindex]
      | some existing =>
        simp only
        split
        · exact ((hfound.mem_updateIndex _ _ _).2 other hne).trans (by rw [hindex])
        · simp only [hindex]

include hbatch hcold

/-- **A document that can be read gets its row.** -/
theorem hasRow_processDocument (hreadable : s.Readable rt docId)
    (hlifecycle : ∃ e ∈ batch, isLifecycleEntry e = true) :
    s.HasRow rt (s.processDocument rt coldSync index docId batch) docId := by
  rw [processDocument]
  cases hfilter : batch.filter isLifecycleEntry with
  | nil =>
    obtain ⟨e, he, hlife⟩ := hlifecycle
    exact absurd hlife (filter_eq_nil_iff.mp hfilter e he)
  | cons representativeEntry rest =>
    have hkey := hreadable batch hbatch representativeEntry rest hfilter
    have hall : (if coldSync then batch else s.entriesOf docId) = s.entriesOf docId := by
      split
      · exact hcold ‹_›
      · rfl
    simp only [hkey, hall, if_true]
    exact hpositioned.exists_row rfl

/-- No document loses its row. -/
theorem HasRow.processDocument {other : JSString} (hreadable : s.Readable rt other)
    (hrow : s.HasRow rt index other) :
    s.HasRow rt (s.processDocument rt coldSync index docId batch) other := by
  by_cases hne : other = docId
  · subst hne
    by_cases hlifecycle : ∃ e ∈ batch, isLifecycleEntry e = true
    · exact hasRow_processDocument hpositioned hbatch hcold hreadable hlifecycle
    · have hnil : batch.filter isLifecycleEntry = [] :=
        filter_eq_nil_iff.mpr fun e he hlife => hlifecycle ⟨e, he, hlife⟩
      rw [processDocument, hnil]
      exact hrow
  · obtain ⟨row, hmem, rfl, hstate⟩ := hrow
    exact ⟨row, (mem_processDocument_of_ne hpositioned hne).mpr hmem, rfl, hstate⟩

end ProcessDocument

/-! ## All documents with new entries -/

/-- The new entries of a document. -/
def IsBatch (s : LocalDatabase) (batch : JSString × List PulledEntry) : Prop :=
  batch.2 = (s.store.drop s.processed).filter fun e => e.docId = batch.1

theorem isBatch_of_mem_newBatches {batch : JSString × List PulledEntry}
    (h : batch ∈ s.newBatches rt) : s.IsBatch batch := by
  rw [newBatches, mem_sortBy] at h
  obtain ⟨docId, -, rfl⟩ := mem_map.mp h
  rfl

variable (rt) in
theorem processBatches_spec {batches : List (JSString × List PulledEntry)}
    (hbatches : ∀ batch ∈ batches, s.IsBatch batch) (hpositioned : index.Positioned) :
    (s.processBatches rt index batches).Positioned
      ∧ ∀ docId, s.Readable rt docId → s.HasRow rt index docId
          ∨ (∃ batch ∈ batches, batch.1 = docId ∧ ∃ e ∈ batch.2, isLifecycleEntry e = true) →
        s.HasRow rt (s.processBatches rt index batches) docId := by
  induction batches generalizing index with
  | nil => exact ⟨hpositioned, fun docId _ h => h.resolve_right (by simp)⟩
  | cons batch batches ih =>
    obtain ⟨hbatch, hrest⟩ := forall_mem_cons.mp hbatches
    have hstretch : batch.2 <:+: s.entriesOf batch.1 := by
      rw [hbatch]
      exact ((drop_suffix s.processed s.store).filter _).isInfix
    have hcold : decide (s.processed = 0) = true → batch.2 = s.entriesOf batch.1 := fun hzero => by
      rw [hbatch, of_decide_eq_true hzero]
      rfl
    obtain ⟨hafter, hrows⟩ := ih hrest (positioned_processDocument rt s batch.1 batch.2
      (decide (s.processed = 0)) hpositioned)
    refine ⟨hafter, fun docId hreadable h => hrows docId hreadable ?_⟩
    rcases h with hrow | ⟨other, hother, rfl, hlifecycle⟩
    · exact .inl (hrow.processDocument hpositioned hstretch hcold hreadable)
    · rcases mem_cons.mp hother with rfl | hother
      · exact .inl (hasRow_processDocument hpositioned hstretch hcold hreadable hlifecycle)
      · exact .inr ⟨other, hother, rfl, hlifecycle⟩

theorem Current.showsAll (h : s.Current rt) (hprocessed : s.processed = s.store.length) :
    s.ShowsAll rt := by
  refine ⟨hprocessed, fun docId hreadable hholds => h.rows docId hreadable hholds ?_⟩
  simp [hprocessed]

/-- **Processing brings the index up to date**, and an interrupted one spoils nothing. -/
theorem Current.syncStoreChanges (h : s.Current rt) (failsAfter : Option ℕ) :
    (s.syncStoreChanges rt failsAfter).2.Current rt
      ∧ (s.syncStoreChanges rt failsAfter).2.store = s.store
      ∧ (s.syncStoreChanges rt failsAfter).2.processed
        = if (s.syncStoreChanges rt failsAfter).1 then s.store.length else s.processed := by
  unfold LocalDatabase.syncStoreChanges
  split
  · rename_i hnone
    have hle : s.store.length ≤ s.processed := drop_eq_nil_iff.mp hnone
    exact ⟨h, rfl, h.le.antisymm hle⟩
  · cases failsAfter with
    | none =>
      obtain ⟨hpositioned, hrows⟩ := processBatches_spec rt
        (fun batch => isBatch_of_mem_newBatches) h.positioned
      refine ⟨⟨hpositioned, le_rfl, fun docId hreadable hholds _ => hrows docId hreadable ?_⟩,
        rfl, rfl⟩
      by_cases hnew : ∃ e ∈ s.store.drop s.processed, e.docId = docId ∧ isLifecycleEntry e = true
      · obtain ⟨e, he, hdocId, hlifecycle⟩ := hnew
        refine .inr ⟨(docId, (s.store.drop s.processed).filter fun e => e.docId = docId), ?_, rfl,
          e, mem_filter.mpr ⟨he, decide_eq_true hdocId⟩, hlifecycle⟩
        rw [newBatches, mem_sortBy]
        refine mem_map_of_mem (f := fun docId => (docId, _)) (LinkedSet.mem_ofList.mpr ?_)
        exact mem_map.mpr ⟨e, he, hdocId⟩
      · refine .inl (h.rows docId hreadable hholds fun e he hdocId => ?_)
        exact Bool.eq_false_iff.mpr fun hlifecycle => hnew ⟨e, he, hdocId, hlifecycle⟩
    | some count =>
      obtain ⟨hpositioned, hrows⟩ := processBatches_spec rt
        (fun batch hbatch => isBatch_of_mem_newBatches (mem_of_mem_take hbatch)) h.positioned
      exact ⟨⟨hpositioned, h.le, fun docId hreadable hholds hold =>
        hrows docId hreadable (.inl (h.rows docId hreadable hholds hold))⟩, rfl, rfl⟩

/-- It succeeds where it does not fail, and where there is nothing to do. -/
theorem syncStoreChanges_fst (rt : PullRuntime) (s : LocalDatabase) (failsAfter : Option ℕ) :
    (s.syncStoreChanges rt failsAfter).1
      = (decide (s.store.length ≤ s.processed) || failsAfter.isNone) := by
  unfold LocalDatabase.syncStoreChanges
  split
  · rename_i hnone
    simp [drop_eq_nil_iff.mp hnone]
  · rename_i hsome
    cases failsAfter with
    | none => simp
    | some count => simpa using fun hle => hsome (drop_eq_nil_iff.mpr hle)

/-- A document that can be read with more entries could be read before. -/
theorem Readable.of_append {stored : List PulledEntry}
    (h : Readable rt { s with store := s.store ++ stored } docId) : s.Readable rt docId := by
  intro batch hbatch
  refine h batch (hbatch.trans ?_)
  rw [entriesOf, entriesOf, filter_append]
  exact (prefix_append _ _).isInfix

/-- Entries that are stored and not processed. -/
theorem Current.append (h : s.Current rt) (stored : List PulledEntry) :
    Current rt { s with store := s.store ++ stored } := by
  have hdrop : (s.store ++ stored).drop s.processed = s.store.drop s.processed ++ stored :=
    drop_append_of_le_length h.le
  refine ⟨h.positioned, h.le.trans (by simp), fun docId hreadable hholds hold => ?_⟩
  have hnone : ∀ e ∈ stored, e.docId = docId → isLifecycleEntry e = false := fun e he =>
    hold e (hdrop ▸ mem_append_right _ he)
  have hholds' : s.Holds docId := by
    obtain ⟨e, he, hdocId, hlifecycle⟩ := hholds
    rcases mem_append.mp he with he | he
    · exact ⟨e, he, hdocId, hlifecycle⟩
    · rw [hnone e he hdocId] at hlifecycle
      cases hlifecycle
  obtain ⟨row, hrow, hdocId, hvisible, hdeleted⟩ := h.rows docId hreadable.of_append hholds' fun e he =>
    hold e (hdrop ▸ mem_append_left _ he)
  refine ⟨row, hrow, hdocId, hvisible, hdeleted.trans (isDeletedFrom_congr ?_)⟩
  have hnil : (stored.filter fun e => e.docId = docId).filter isPulledReplay = [] := by
    refine filter_eq_nil_iff.mpr fun e he hreplay => ?_
    obtain ⟨he, hdocId⟩ := mem_filter.mp he
    have hlifecycle := hnone e he (of_decide_eq_true hdocId)
    simp [isLifecycleEntry, hreplay] at hlifecycle
  rw [entriesOf, entriesOf, filter_append, filter_append, hnil, append_nil]

/-! ## Pulls -/

/-- Whether entries are left over after a pull: it stopped after it had stored some, or found
nothing to transfer where there were some already. -/
def leavesOver (left : Bool) (call : PullCall) : Bool :=
  if call.transferEnd = .completed ∧ call.transferred ≠ 0 ∧ call.abortedBeforeProcessing = false
      ∧ call.processingFailsAfter = none then false
  else left || !call.stored.isEmpty

/-- **Entries are left over after some pulls.** -/
def leftover (calls : List PullCall) : Bool := calls.foldl leavesOver false

/-- A pull that finds nothing to transfer. -/
def FindsNothing (call : PullCall) : Prop :=
  call.transferEnd = .completed ∧ call.transferred = 0

theorem FindsNothing.pull {call : PullCall} (h : FindsNothing call) :
    s.pullChangesFrom rt call = (.completed, s) := by
  have hnil : call.stored = [] := by
    have hcounts := call.counts h.1
    rw [h.2] at hcounts
    exact length_eq_zero_iff.mp (Nat.le_zero.mp hcounts)
  rw [pullChangesFrom, h.1]
  simp [h.2, hnil]

/-- What is known between two pulls. -/
structure Between (rt : PullRuntime) (s : LocalDatabase) (left : Bool) : Prop where
  current : s.Current rt
  left : left = true ↔ s.processed < s.store.length

theorem Between.append {left : Bool} (h : Between rt s left) (stored : List PulledEntry) :
    Between rt { s with store := s.store ++ stored } (left || !stored.isEmpty) := by
  refine ⟨h.current.append stored, ?_⟩
  have hle := h.current.le
  rw [Bool.or_eq_true, h.left]
  cases stored with
  | nil => simp
  | cons e stored => simp; omega

theorem Between.sync {left : Bool} (h : Between rt s left) (failsAfter : Option ℕ) :
    Between rt (s.syncStoreChanges rt failsAfter).2 (if failsAfter = none then false else left)
      ∧ ((s.syncStoreChanges rt failsAfter).1 = true →
        (s.syncStoreChanges rt failsAfter).2.processed
          = (s.syncStoreChanges rt failsAfter).2.store.length) := by
  obtain ⟨hcurrent, hstore, hprocessed⟩ := h.current.syncStoreChanges failsAfter
  have hsucceeds := syncStoreChanges_fst rt s failsAfter
  refine ⟨⟨hcurrent, ?_⟩, fun hsucceeded => by rw [hprocessed, hsucceeded, hstore, if_pos rfl]⟩
  rw [hprocessed, hstore, hsucceeds]
  cases failsAfter with
  | none => simp
  | some count =>
    rw [if_neg (by simp), h.left]
    by_cases hle : s.store.length ≤ s.processed
    · simp [hle]
    · simp [hle]

/-- **One pull**, and what a completed one shows. -/
theorem Between.pull {left : Bool} (h : Between rt s left) (call : PullCall) :
    Between rt (s.pullChangesFrom rt call).2 (leavesOver left call)
      ∧ ((s.pullChangesFrom rt call).1 = .completed → ¬FindsNothing call →
        (s.pullChangesFrom rt call).2.processed = (s.pullChangesFrom rt call).2.store.length) := by
  have happend := h.append call.stored
  unfold pullChangesFrom leavesOver
  cases hend : call.transferEnd with
  | failed | cancelled => exact ⟨by simpa using happend, by simp⟩
  | completed =>
    by_cases hzero : call.transferred = 0
    · exact ⟨by simpa [hzero] using happend, fun _ hnot => absurd ⟨hend, hzero⟩ hnot⟩
    cases habort : call.abortedBeforeProcessing with
    | true => exact ⟨by simpa [hzero] using happend, by simp [hzero]⟩
    | false =>
      obtain ⟨hbetween, hall⟩ := happend.sync call.processingFailsAfter
      simp only [hzero, if_false, Bool.false_eq_true, true_and, ne_eq, not_false_eq_true]
      generalize LocalDatabase.syncStoreChanges rt _ _ = synced at hbetween hall
      obtain ⟨succeeded, s'⟩ := synced
      cases succeeded with
      | true => exact ⟨hbetween, fun _ _ => hall rfl⟩
      | false => exact ⟨hbetween, fun hcompleted => by cases hcompleted⟩

/-! ## Runs of pulls -/

variable (rt) in
theorem Between.pulls (h : Between rt s false) (calls : List PullCall) :
    Between rt (s.pulls rt calls) (leftover calls) := by
  induction calls using List.reverseRecOn with
  | nil => exact h
  | append_singleton calls call ih =>
    rw [LocalDatabase.pulls, leftover, foldl_append, foldl_append]
    exact (ih.pull call).1

end LocalDatabase

/-- A tenant that has every key. -/
def openRuntime : PullRuntime where
  env := plainRuntime
  hasDecryptionKey _ _ := true

/-- A document that a remote store has. -/
def pulledEntry : PulledEntry where
  toDocEntryMetadata := ⟨.unwitnessed .docCreate "e" "d" "h" [] 1, "default", "k", none⟩

/-- Its pull, which may be cancelled before the processing. -/
def pullOfEntry (cancelled : Bool) : PullCall where
  stored := [pulledEntry]
  transferred := 1
  transferEnd := .completed
  abortedBeforeProcessing := cancelled
  counts := by decide

/-- The pull after it. -/
def pullOfNothing : PullCall where
  stored := []
  transferred := 0
  transferEnd := .completed
  counts := by decide

theorem showsAll_empty : ShowsAll openRuntime {} :=
  ⟨rfl, fun _ _ ⟨_, he, _⟩ => absurd he not_mem_nil⟩

theorem positioned_empty : ({} : ChangeIndex).Positioned :=
  ⟨⟨List.Pairwise.nil, nofun, nodup_nil⟩, Nat.one_pos, by simp,
    by simp⟩

end MindooDB
