import MindooDB.Sync.Complete

/-!
# Sync/Finished — a run comes to an end

The head of the source bounds a run: each page takes the cursor further towards it, and the work of
a page is that of its batches (`SyncRun.work`).  Receipts move what was transferred behind the head,
so no run sees its own transfers again.
-/

namespace MindooDB

open List SyncEvent SyncOptions SyncRun SyncSession
open Ledger (Grows Has reached)

/-- What may happen to a run while nothing fails. -/
def SyncRunEvent.succeeds : SyncRunEvent → Bool
  | .fails | .batchFails .. => false
  | _ => true

/-! ## The work left -/

/-- How often a worker awaits something. -/
def TransferWorker.work : TransferWorker → ℕ
  | .fetching _ => 3
  | .putting _ => 2
  | .witnessing _ => 1

def Transfer.work (transfer : Transfer) : ℕ :=
  4 * transfer.batches.length + (transfer.workers.map TransferWorker.work).sum

namespace SyncRun

/-- The steps of a page, from the scan on. -/
def pageWork (o : SyncOptions) : ℕ := 4 * o.scanPageSize + 5

/-- Whether a page was asked for and is not there. -/
def awaitsPage (run : SyncRun) : ℕ :=
  match run.nextPage with
  | .fetching _ => 1
  | _ => 0

/-- The numbers from the cursor to the head. -/
def numbersLeft (run : SyncRun) (head : StoreHead) : ℕ :=
  (head.maxReceiptOrder - reached run.cursor).toNat

/-- **What is left to do in a run**, at most. -/
def work (o : SyncOptions) (run : SyncRun) (head : StoreHead) : ℕ :=
  match run.phase with
  | .top => run.numbersLeft head * pageWork o + pageWork o + run.awaitsPage
  | .fetched page =>
    run.numbersLeft head * pageWork o + (4 * page.entries.length + 3) + run.awaitsPage
  | .filtered _ missingIds =>
    run.numbersLeft head * pageWork o + (4 * missingIds.length + 2) + run.awaitsPage
  | .transferring _ transfer =>
    run.numbersLeft head * pageWork o + (transfer.work + 1) + run.awaitsPage
  | .returned _ | .thrown => 0

end SyncRun

/-! ## Pages and batches -/

section Lists

variable {α : Type*} {l : List α} {y : α} {i : ℕ}

/-- An element of a list, and what is around it. -/
theorem exists_around (hi : l[i]? = some y) : ∃ before after, l = before ++ y :: after ∧
    l.eraseIdx i = before ++ after ∧ ∀ z, l.set i z = before ++ z :: after := by
  obtain ⟨hlt, rfl⟩ := List.getElem?_eq_some_iff.mp hi
  refine ⟨l.take i, l.drop (i + 1), ?_, eraseIdx_eq_take_drop_succ l i, fun z => ?_⟩
  · rw [← drop_eq_getElem_cons hlt, take_append_drop]
  · rw [set_eq_take_append_cons_drop, if_pos hlt]

end Lists

theorem length_filterMissingIds_le (target : Ledger) (candidateIds : List JSString)
    (bloom : Option (JSString → Bool)) :
    (filterMissingIds target candidateIds bloom).length ≤ candidateIds.length := by
  have hsplit := length_eq_length_filter_add (l := candidateIds)
    fun id => bloom.all fun mightContain => mightContain id
  have hnot : (fun id => !bloom.all fun mightContain => mightContain id)
      = fun id => bloom.any fun mightContain => !mightContain id := by
    funext id
    cases bloom <;> rfl
  rw [hnot] at hsplit
  rw [filterMissingIds, length_append]
  have hle := length_filter_le (fun id => (target.find? id).isNone)
    (candidateIds.filter fun id => bloom.all fun mightContain => mightContain id)
  omega

/-- There are no more batches than ids. -/
theorem SyncOptions.length_batches_le {o : SyncOptions} (h : 0 < o.scanPageSize)
    {entryIds : List JSString} (hne : entryIds ≠ []) :
    (o.batches entryIds).length ≤ entryIds.length := by
  have hlength : 0 < entryIds.length := length_pos_of_ne_nil hne
  have hsize := resolveTransferBatchSize_pos h
  rw [batches, length_map, length_range, totalTransferBatches]
  refine max_le hlength (Nat.le_of_lt_succ ((Nat.div_lt_iff_lt_mul hsize).mpr ?_))
  have hle : entryIds.length ≤ entryIds.length * o.resolveTransferBatchSize :=
    Nat.le_mul_of_pos_right _ hsize
  rw [Nat.succ_mul]
  omega

variable {o : SyncOptions} {s : SyncSession} {run : SyncRun} {page : StoreScanResult}

theorem SyncRun.Scanned.length_le {source : Ledger} {cursor : Option StoreScanCursor}
    (h : run.Scanned o source cursor page) : page.entries.length ≤ o.scanPageSize := by
  obtain ⟨a, -, -, rfl, -⟩ := h
  exact length_take_le _ _

theorem SyncRun.length_candidateIds_le : (run.candidateIds page).length ≤ page.entries.length := by
  have hentries : (run.pageEntries page).length ≤ page.entries.length := by
    unfold pageEntries
    split
    · exact length_filter_le _ _
    · exact le_rfl
  refine (length_filter_le _ _).trans ?_
  rwa [length_map]

/-! ## Less to do -/

/-- A run with less to do. -/
def SyncSession.Advances (o : SyncOptions) (n : ℕ) (head : StoreHead) (s : SyncSession) : Prop :=
  ∃ run, s.run = some run ∧ run.sourceHead = some head ∧ run.work o head < n

namespace SyncSession

variable {head : StoreHead} {n : ℕ}

theorem advances_goes (hhead : run.sourceHead = some head) {phase : SyncPhase}
    (hwork : SyncRun.work o { run with phase := phase } head < n) :
    (s.goes run phase).Advances o n head := ⟨_, rfl, hhead, hwork⟩

theorem advances_returns (hhead : run.sourceHead = some head) (hn : 0 < n) (cancelled : Bool) :
    (s.returns run cancelled).Advances o n head := ⟨_, rfl, hhead, hn⟩

/-- **A page takes the cursor further**, or is the last one. -/
theorem advances_endPage (ho : 0 < o.scanPageSize) (hhead : run.sourceHead = some head)
    (hscanned : run.Scanned o s.source run.cursor page)
    (hn : run.numbersLeft head * SyncRun.pageWork o + run.awaitsPage < n) :
    (s.endPage run page).Advances o n head := by
  have hpos : 0 < n := Nat.zero_lt_of_lt hn
  unfold endPage
  split
  · exact advances_returns (by exact hhead) hpos false
  rename_i hreached
  have hreached := Bool.eq_false_iff.mpr hreached
  split
  swap
  · exact advances_returns (by exact hhead) hpos false
  rename_i hmore
  refine advances_goes (by exact hhead) ?_
  have hnext := hscanned.nextCursor_eq
  have hbound : ∀ m ∈ page.entries, m.order ≤ head.maxReceiptOrder := fun m hm =>
    order_le_bound hreached hm _ (Option.mem_map_of_mem (·.maxReceiptOrder) hhead)
  obtain ⟨a, -, hmarks, rfl, -⟩ := hscanned
  have hne : (a.scanEntriesSince run.cursor o.scanPageSize).entries ≠ [] := fun hnil =>
    absurd hmore (Bool.eq_false_iff.mp (Ledger.hasMore_of_nil ho hnil))
  have hlast := getLast?_eq_some_getLast hne
  have hmem := getLast_mem hne
  have hlt := hmarks.reached_lt hmem
  have hle := hbound _ hmem
  have hreaches : reached (a.scanEntriesSince run.cursor o.scanPageSize).nextCursor
      = ((a.scanEntriesSince run.cursor o.scanPageSize).entries.getLast hne).order := by
    rw [hnext, Ledger.reached_or, hlast]
    rfl
  have hless : numbersLeft { run with
      cursor := (a.scanEntriesSince run.cursor o.scanPageSize).nextCursor } head + 1
        ≤ run.numbersLeft head := by
    simp only [numbersLeft, hreaches]
    omega
  have hmul := Nat.mul_le_mul_right (SyncRun.pageWork o) hless
  rw [Nat.succ_mul] at hmul
  exact lt_of_le_of_lt (Nat.add_le_add_right hmul run.awaitsPage) hn

/-! ## Each step does some of the work -/

theorem work_pos (hended : run.ended = false) : 0 < run.work o head := by
  cases hphase : run.phase with
  | returned cancelled | thrown => simp [ended, hphase] at hended
  | _ =>
    simp only [SyncRun.work, hphase, SyncRun.pageWork]
    omega

theorem advances_receive (hhead : run.sourceHead = some head)
    (hlength : page.entries.length ≤ o.scanPageSize)
    (hn : run.numbersLeft head * SyncRun.pageWork o + SyncRun.pageWork o ≤ n) :
    (s.receive run page).Advances o n head := by
  refine advances_goes (by exact hhead) ?_
  have hawaits : awaitsPage { run with
      nextPage := if page.hasMore then .fetching page.nextCursor else .none } ≤ 1 := by
    cases page.hasMore <;> simp [awaitsPage]
  change run.numbersLeft head * SyncRun.pageWork o + (4 * page.entries.length + 3) + _ < n
  rw [SyncRun.pageWork] at hn ⊢
  refine lt_of_le_of_lt (Nat.add_le_add_left hawaits _) ?_
  omega

theorem advances_scan (hkept : s.RunKept o run) (hhead : run.sourceHead = some head)
    (hphase : run.phase = .top) (hnext : ∀ cursor, run.nextPage ≠ .fetching cursor) :
    (s.runStep o run .scan).Advances o (run.work o head) head := by
  have hphaseKept := hkept.phase
  rw [hphase] at hphaseKept
  have hpos : 0 < run.work o head := work_pos (by simp [ended, hphase])
  have hwork : run.numbersLeft head * SyncRun.pageWork o + SyncRun.pageWork o ≤ run.work o head := by
    rw [SyncRun.work, hphase]
    exact Nat.le_add_right _ _
  simp only [runStep, hphase]
  split
  · exact advances_returns hhead hpos true
  split
  · exact advances_receive hhead (hkept.toBaseKept.scanned hkept.marks).length_le hwork
  · rename_i cursor hcursor
    exact absurd hcursor (hnext cursor)
  · rename_i fetched hfetched
    simp only [PhaseKept, Prefetched, hfetched] at hphaseKept
    exact advances_receive hhead hphaseKept.length_le hwork

theorem advances_prefetched (hhead : run.sourceHead = some head) (hended : run.ended = false)
    {cursor : Option StoreScanCursor} (hnext : run.nextPage = .fetching cursor) :
    (s.runStep o run .prefetched).Advances o (run.work o head) head := by
  have hstep : s.runStep o run .prefetched = { s with run := some { run with
      nextPage := .fetched (s.source.scanEntriesSince cursor o.scanPageSize) } } := by
    rw [runStep]
    simp only [hended, hnext]
  rw [hstep]
  refine ⟨_, rfl, hhead, ?_⟩
  unfold SyncRun.work
  have hawaits : run.awaitsPage = 1 := by rw [awaitsPage, hnext]
  cases hphase : run.phase with
  | returned cancelled | thrown => simp [ended, hphase] at hended
  | _ =>
    rw [hawaits]
    exact Nat.lt_succ_self _

theorem advances_filter (ho : 0 < o.scanPageSize) (hkept : s.RunKept o run)
    (hhead : run.sourceHead = some head) (hphase : run.phase = .fetched page) :
    (s.runStep o run .filter).Advances o (run.work o head) head := by
  have hpage := hkept.phase
  rw [hphase] at hpage
  have hpos : 0 < run.work o head := work_pos (by simp [ended, hphase])
  simp only [runStep, hphase]
  split
  · exact advances_returns hhead hpos true
  have hwork : run.work o head = run.numbersLeft head * SyncRun.pageWork o
      + (4 * page.entries.length + 3) + run.awaitsPage := by rw [SyncRun.work, hphase]
  split
  · refine advances_endPage ho hhead hpage.scanned ?_
    omega
  · refine advances_goes hhead ?_
    have hle := length_filterMissingIds_le s.target (run.candidateIds page) run.targetBloom
    have hle' : (run.candidateIds page).length ≤ page.entries.length := length_candidateIds_le
    change run.numbersLeft head * SyncRun.pageWork o + (4 * _ + 2) + run.awaitsPage < _
    omega

theorem advances_proceed (ho : 0 < o.scanPageSize) (hkept : s.RunKept o run)
    (hhead : run.sourceHead = some head) {missingIds : List JSString}
    (hphase : run.phase = .filtered page missingIds) :
    (s.runStep o run .proceed).Advances o (run.work o head) head := by
  have hpage := hkept.phase
  rw [hphase] at hpage
  have hpos : 0 < run.work o head := work_pos (by simp [ended, hphase])
  simp only [runStep, hphase]
  split
  · exact advances_returns hhead hpos true
  have hwork : run.work o head = run.numbersLeft head * SyncRun.pageWork o
      + (4 * missingIds.length + 2) + run.awaitsPage := by rw [SyncRun.work, hphase]
  split
  · refine advances_endPage ho hhead hpage.1.scanned ?_
    omega
  · rename_i hne
    refine advances_goes hhead ?_
    have hle := length_batches_le ho hne
    change run.numbersLeft head * SyncRun.pageWork o + (4 * (o.batches missingIds).length + 0 + 1)
      + run.awaitsPage < _
    omega

/-! ## Workers -/

variable {transfer : Transfer}

theorem work_transferring (hphase : run.phase = .transferring page transfer) :
    run.work o head = run.numbersLeft head * SyncRun.pageWork o + (transfer.work + 1)
      + run.awaitsPage := by
  rw [SyncRun.work, hphase]

theorem advances_works (hhead : run.sourceHead = some head)
    (hphase : run.phase = .transferring page transfer) {transfer' : Transfer}
    {workers : List TransferWorker}
    (hwork : Transfer.work { transfer' with workers := workers } < transfer.work) :
    (s.works run page transfer' workers).Advances o (run.work o head) head := by
  refine advances_goes hhead ?_
  rw [work_transferring hphase]
  exact Nat.add_lt_add_right (Nat.add_lt_add_left (Nat.succ_lt_succ hwork) _) _

theorem work_erase {i : ℕ} {worker : TransferWorker} (hworker : transfer.workers[i]? = some worker)
    {failed : Bool} : Transfer.work
      { transfer with workers := transfer.workers.eraseIdx i, failed := failed } < transfer.work := by
  obtain ⟨before, after, heq, herase, -⟩ := exists_around hworker
  have hpos : 0 < worker.work := by cases worker <;> simp [TransferWorker.work]
  rw [Transfer.work, Transfer.work, herase, heq]
  simp only [map_append, map_cons, sum_append, sum_cons]
  omega

theorem work_set {i : ℕ} {worker worker' : TransferWorker}
    (hworker : transfer.workers[i]? = some worker) (hless : worker'.work < worker.work) :
    Transfer.work { transfer with workers := transfer.workers.set i worker' } < transfer.work := by
  obtain ⟨before, after, heq, -, hset⟩ := exists_around hworker
  rw [Transfer.work, Transfer.work, hset, heq]
  simp only [map_append, map_cons, sum_append, sum_cons]
  omega

/-- A batch is taken, when there is one and room for a worker. -/
theorem advances_take (hhead : run.sourceHead = some head)
    (hphase : run.phase = .transferring page transfer) :
    (s.take o run page transfer = s ∧ (stops run transfer = false → transfer.workers ≠ [])) ∨
      (s.take o run page transfer).Advances o (run.work o head) head := by
  unfold take
  split
  · rename_i hstops
    exact .inl ⟨rfl, fun hnot => Bool.noConfusion (hnot.symm.trans hstops)⟩
  rename_i hstops
  split
  · rename_i hbatches
    simp [stops, hbatches] at hstops
  rename_i batchIds batches hbatches
  split
  · refine .inr (advances_works hhead hphase ?_)
    simp only [Transfer.work, hbatches, length_cons, map_append, sum_append,
      map_cons, map_nil, sum_cons, sum_nil, TransferWorker.work]
    omega
  · rename_i hfull
    refine .inl ⟨rfl, fun _ hnil => hfull ?_⟩
    rw [hnil, maxConcurrent, totalTransferBatches]
    exact lt_min (lt_of_lt_of_le Nat.one_pos (le_max_left _ _))
      (lt_of_lt_of_le Nat.one_pos (le_max_left _ _))

theorem advances_advance (hhead : run.sourceHead = some head)
    (hphase : run.phase = .transferring page transfer) (i : ℕ)
    (receipts : List StoreEntryMetadata) :
    (s.advance run page transfer i receipts = s ∧
        (receipts = [] → transfer.workers[i]? = none)) ∨
      (s.advance run page transfer i receipts).Advances o (run.work o head) head := by
  unfold advance
  split
  · rename_i hnone
    exact .inl ⟨rfl, fun _ => hnone⟩
  · rename_i hworker
    split
    · exact .inr (advances_works hhead hphase (work_erase hworker))
    · exact .inr (advances_works hhead hphase (work_set hworker (Nat.lt_succ_self _)))
  · rename_i hworker
    split
    · exact .inr (advances_works hhead hphase (work_set hworker (Nat.lt_succ_self _)))
    · rename_i hreceipts
      exact .inl ⟨rfl, fun hnil => absurd (by simp [hnil]) hreceipts⟩
  · rename_i hworker
    exact .inr (advances_works hhead hphase (work_erase hworker))

theorem advances_batchFails (hhead : run.sourceHead = some head)
    (hphase : run.phase = .transferring page transfer) (i done : ℕ) :
    s.batchFails run page transfer i done = s ∨
      (s.batchFails run page transfer i done).Advances o (run.work o head) head := by
  unfold batchFails
  split
  · exact .inl rfl
  all_goals
    rename_i hworker
    exact .inr (advances_works hhead hphase (work_erase hworker))

theorem advances_settle (ho : 0 < o.scanPageSize) (hkept : s.RunKept o run)
    (hhead : run.sourceHead = some head) (hphase : run.phase = .transferring page transfer) :
    (s.settle run page transfer = s ∧ ¬(transfer.workers = [] ∧ stops run transfer = true)) ∨
      (s.settle run page transfer).Advances o (run.work o head) head := by
  have hpage := hkept.phase
  rw [hphase] at hpage
  have hpos : 0 < run.work o head := work_pos (by simp [ended, hphase])
  unfold settle
  split
  swap
  · rename_i hnot
    exact .inl ⟨rfl, fun hdone => hnot (by rw [hdone.1, hdone.2]; rfl)⟩
  refine .inr ?_
  split
  · exact advances_returns hhead hpos true
  split
  · exact advances_goes hhead hpos
  · refine advances_endPage ho (by exact hhead) hpage.1.scanned ?_
    change run.numbersLeft head * SyncRun.pageWork o + run.awaitsPage < _
    rw [work_transferring hphase]
    omega

/-! ## Runs -/

/-- **A step of a run does nothing, or leaves less to do.** -/
theorem runStep_eq_or_advances (ho : 0 < o.scanPageSize) (hkept : s.RunKept o run)
    (hhead : run.sourceHead = some head) (event : SyncRunEvent) :
    s.runStep o run event = s ∨ (s.runStep o run event).Advances o (run.work o head) head := by
  cases event with
  | scan =>
    cases hphase : run.phase with
    | top =>
      by_cases hnext : ∃ cursor, run.nextPage = .fetching cursor
      · obtain ⟨cursor, hcursor⟩ := hnext
        by_cases habort : run.aborted = true
        · refine .inr ?_
          simp only [runStep, hphase, habort, if_true]
          exact advances_returns hhead (work_pos (by simp [ended, hphase])) true
        · simp [runStep, hphase, habort, hcursor]
      · exact .inr (advances_scan hkept hhead hphase fun cursor hcursor => hnext ⟨cursor, hcursor⟩)
    | _ => simp [runStep, hphase]
  | prefetched =>
    cases hended : run.ended with
    | true => simp [runStep, hended]
    | false =>
      cases hnext : run.nextPage with
      | fetching cursor => exact .inr (advances_prefetched hhead hended hnext)
      | _ => simp [runStep, hnext]
  | filter =>
    cases hphase : run.phase with
    | fetched page => exact .inr (advances_filter ho hkept hhead hphase)
    | _ => simp [runStep, hphase]
  | proceed =>
    cases hphase : run.phase with
    | filtered page missingIds => exact .inr (advances_proceed ho hkept hhead hphase)
    | _ => simp [runStep, hphase]
  | take =>
    cases hphase : run.phase with
    | transferring page transfer =>
      simpa only [runStep, hphase] using (advances_take hhead hphase).imp_left And.left
    | _ => simp [runStep, hphase]
  | advance i receipts =>
    cases hphase : run.phase with
    | transferring page transfer =>
      simpa only [runStep, hphase] using
        (advances_advance hhead hphase i receipts).imp_left And.left
    | _ => simp [runStep, hphase]
  | batchFails i done =>
    cases hphase : run.phase with
    | transferring page transfer =>
      simpa only [runStep, hphase] using advances_batchFails hhead hphase i done
    | _ => simp [runStep, hphase]
  | settle =>
    cases hphase : run.phase with
    | transferring page transfer =>
      simpa only [runStep, hphase] using
        (advances_settle ho hkept hhead hphase).imp_left And.left
    | _ => simp [runStep, hphase]
  | fails =>
    have hthrown : run.ended = false → (s.goes run .thrown).Advances o (run.work o head) head :=
      fun hended => advances_goes hhead (work_pos hended)
    cases hphase : run.phase with
    | top | fetched page =>
      simpa only [runStep, hphase] using
        .inr (hthrown (by simp [ended, hphase]))
    | _ => simp [runStep, hphase]

/-- **A run is never stuck**, though nothing fails. -/
theorem exists_advances (ho : 0 < o.scanPageSize) (hkept : s.RunKept o run)
    (hhead : run.sourceHead = some head) (hended : run.ended = false) :
    ∃ event : SyncRunEvent, event.succeeds = true
      ∧ (s.runStep o run event).Advances o (run.work o head) head := by
  cases hphase : run.phase with
  | top =>
    cases hnext : run.nextPage with
    | fetching cursor => exact ⟨.prefetched, rfl, advances_prefetched hhead hended hnext⟩
    | none | fetched page => exact ⟨.scan, rfl, advances_scan hkept hhead hphase (by simp [hnext])⟩
  | fetched page => exact ⟨.filter, rfl, advances_filter ho hkept hhead hphase⟩
  | filtered page missingIds => exact ⟨.proceed, rfl, advances_proceed ho hkept hhead hphase⟩
  | transferring page transfer =>
    cases hworkers : transfer.workers with
    | cons worker workers =>
      refine ⟨.advance 0 [], rfl, ?_⟩
      simp only [runStep, hphase]
      refine (advances_advance hhead hphase 0 []).resolve_left fun hnone => ?_
      have hzero := hnone.2 rfl
      rw [hworkers] at hzero
      simp at hzero
    | nil =>
      cases hstops : stops run transfer with
      | true =>
        refine ⟨.settle, rfl, ?_⟩
        simp only [runStep, hphase]
        exact (advances_settle ho hkept hhead hphase).resolve_left fun hnot =>
          hnot.2 ⟨hworkers, hstops⟩
      | false =>
        refine ⟨.take, rfl, ?_⟩
        simp only [runStep, hphase]
        exact (advances_take hhead hphase).resolve_left fun hnot => hnot.2 hstops hworkers
  | returned cancelled | thrown => simp [ended, hphase] at hended

end SyncSession

/-! ## Sessions -/

/-- A step of the run under way. -/
def SyncEvent.isRun : SyncEvent → Bool
  | .runs _ => true
  | _ => false

/-- What begins a run, or takes it away. -/
def SyncEvent.replacesRun : SyncEvent → Bool
  | .start .. | .restore _ | .renewSource .. | .renewTarget .. => true
  | _ => false

namespace SyncSession

variable {head : StoreHead}

/-- Two stores that were never synced. -/
def initial (source target : Ledger) (sourceEpoch targetEpoch : JSString) : SyncSession where
  source := source
  target := target
  sourceEpoch := sourceEpoch
  targetEpoch := targetEpoch

/-- Within a run: what it does has an effect. -/
def Within (o : SyncOptions) (s : SyncSession) (event : SyncEvent) : Prop :=
  event.replacesRun = false ∧ (event.isRun = true → s.step o event ≠ s)

theorem kept_initial (source target : Ledger) (sourceEpoch targetEpoch : JSString) :
    (initial source target sourceEpoch targetEpoch).Kept o :=
  ⟨fun record hrecord => absurd hrecord (by simp [records, initial]),
    fun run hrun => absurd hrun (by simp [initial])⟩

theorem Kept.run_step (ho : 0 < o.scanPageSize) (h : s.Kept o) (events : List SyncEvent) :
    (Run.run (SyncSession.step o) s events).Kept o := by
  induction events generalizing s with
  | nil => exact h
  | cons event events ih => exact ih (h.step ho event)

/-- What others do leaves a run its work. -/
theorem work_of_not_isRun (o : SyncOptions) (head : StoreHead) (hrun : s.run = some run) {event : SyncEvent}
    (hevent : event.isRun = false) (hreplaces : event.replacesRun = false) :
    ∃ run', (s.step o event).run = some run' ∧ run'.sourceHead = run.sourceHead ∧
      run'.work o head = run.work o head := by
  cases event with
  | write entry => exact ⟨run, hrun, rfl, rfl⟩
  | restamp receipt => exact ⟨_, congrArg (Option.map _) hrun, rfl, rfl⟩
  | targetPut entry | targetRestamp receipt | flush => exact ⟨run, hrun, rfl, rfl⟩
  | abort => exact ⟨_, congrArg (Option.map _) hrun, rfl, rfl⟩
  | runs event => exact absurd hevent (by simp [isRun])
  | _ => exact absurd hreplaces (by simp [replacesRun])

/-- **A run takes no more steps than it has work.** -/
theorem Kept.countP_le_work (ho : 0 < o.scanPageSize) (h : s.Kept o) (hrun : s.run = some run)
    (hhead : run.sourceHead = some head) {events : List SyncEvent}
    (hevents : Run.AllSteps (SyncSession.step o) (Within o) s events) :
    events.countP isRun ≤ run.work o head := by
  induction events generalizing s run with
  | nil => exact Nat.zero_le _
  | cons event events ih =>
    obtain ⟨⟨hreplaces, heffect⟩, hevents⟩ := hevents
    cases hevent : event.isRun with
    | false =>
      obtain ⟨run', hrun', hhead', hwork⟩ :=
        work_of_not_isRun o head hrun hevent hreplaces
      rw [countP_cons_of_neg (by simp [hevent]), ← hwork]
      exact ih (h.step ho event) hrun' (hhead'.trans hhead) hevents
    | true =>
      have hne := heffect hevent
      cases event with
      | runs event =>
        have hstep : s.step o (.runs event) = s.runStep o run event := by
          rw [SyncSession.step, hrun]
        rw [hstep] at hne
        obtain ⟨run', hrun', hhead', hwork⟩ :=
          (runStep_eq_or_advances ho (h.run run hrun) hhead event).resolve_left hne
        have hle := ih (h.step ho (.runs event)) (hstep ▸ hrun') hhead' hevents
        rw [countP_cons_of_pos hevent]
        omega
      | _ => exact absurd hevent (by simp [isRun])

/-- **A run that is under way can go on.** -/
theorem Kept.exists_step (ho : 0 < o.scanPageSize) (h : s.Kept o) (hrun : s.run = some run)
    (hhead : run.sourceHead = some head) (hended : run.ended = false) :
    ∃ event : SyncRunEvent, event.succeeds = true ∧ s.step o (.runs event) ≠ s := by
  obtain ⟨event, hsucceeds, run', hrun', -, hwork⟩ :=
    exists_advances ho (h.run run hrun) hhead hended
  refine ⟨event, hsucceeds, fun heq => ?_⟩
  have hstep : s.step o (.runs event) = s.runStep o run event := by
    rw [SyncSession.step, hrun]
  rw [← hstep, heq, hrun] at hrun'
  rw [Option.some.inj hrun'] at hwork
  exact lt_irrefl _ hwork

/-- **What a completed run has brought over.** -/
theorem Kept.has_of_returned (h : s.Kept o) (hrun : s.run = some run)
    (hhead : run.sourceHead = some head) (hreturned : run.phase = .returned false) {id : JSString}
    (hid : id ∈ run.atHead) : s.target.Has id ∨
      id ∈ run.moved ∧ ∃ e ∈ s.source.live, e.id = id ∧ head.maxReceiptOrder < e.order := by
  have hkept := h.run run hrun
  have hphase := hkept.phase
  rw [hreturned] at hphase
  have hcovers : CoversUpTo s.source s.target head.maxReceiptOrder := hphase head hhead
  obtain ⟨e, he, rfl⟩ := hkept.present id hid
  by_cases hle : e.order ≤ head.maxReceiptOrder
  · exact .inl (hcovers e he hle)
  rcases hkept.atHead e.id hid with hhas | hmoved | ⟨e', he', hid', hle'⟩
  · exact .inl hhas
  · exact .inr ⟨hmoved, e, he, rfl, not_le.mp hle⟩
  · exact absurd (Ledger.eq_of_id_eq he' he hid' ▸ hle' head hhead) hle

end SyncSession

/-- **Full sync between two stores**, with anyone writing to them: a run that completes has brought
over what the source had at its head, but for what another sync has moved behind the head; no record
has passed an entry that the target lacks; and a run that nothing fails in goes on until it ends; in
any case it takes a bounded number of steps. -/
theorem sync_run (o : SyncOptions) (ho : 0 < o.scanPageSize) (source target : Ledger)
    (sourceEpoch targetEpoch : JSString) (events : List SyncEvent) :
    let s := Run.run (SyncSession.step o) (initial source target sourceEpoch targetEpoch) events
    (∀ record ∈ s.record, record.sourceEpoch = s.sourceEpoch → record.targetEpoch = s.targetEpoch →
        ∀ e ∈ s.source.live, e.order ≤ record.cursor.receiptOrder → s.target.Has e.id)
      ∧ ∀ run ∈ s.run, ∀ head ∈ run.sourceHead,
        (run.phase = .returned false → ∀ id ∈ run.atHead, s.target.Has id ∨ id ∈ run.moved ∧
            ∃ e ∈ s.source.live, e.id = id ∧ head.maxReceiptOrder < e.order)
        ∧ (run.ended = false → ∃ event : SyncRunEvent, event.succeeds = true
          ∧ s.step o (.runs event) ≠ s)
        ∧ ∀ later, Run.AllSteps (SyncSession.step o) (Within o) s later →
            later.countP isRun ≤ run.work o head := by
  intro s
  have hkept : s.Kept o := (kept_initial source target sourceEpoch targetEpoch).run_step ho events
  refine ⟨fun record hrecord hsource htarget => ?_, fun run hrun head hhead =>
    ⟨fun hreturned id hid => hkept.has_of_returned hrun hhead hreturned hid,
      fun hended => hkept.exists_step ho hrun hhead hended,
      fun later hlater => hkept.countP_le_work ho hrun hhead hlater⟩⟩
  exact (hkept.records record (mem_filterMap.mpr ⟨s.record, mem_cons_self, hrecord⟩)
    hsource htarget).1

/-- An entry of a document, and a receipt for it. -/
def writtenEntry : StoreEntry := ⟨.unwitnessed .docCreate "a" "d" "h" [] 1, []⟩

def writtenReceipt : StoreEntryMetadata :=
  { StoreEntryMetadata.unwitnessed .docCreate "a" "d" "h" [] 1 with receivedAt := some 2 }

/-- A push to a target that answers with a receipt. -/
def pushEvents : List SyncEvent :=
  [.write writtenEntry, .start false true true none, .runs .scan, .runs .filter, .runs .proceed,
    .runs .take, .runs (.advance 0 []), .runs (.advance 0 [writtenReceipt]), .runs (.advance 0 []),
    .runs .settle]

/-- What a test looks at in a run. -/
def SyncSession.outcome (s : SyncSession) :
    Option (SyncPhase × Option StoreHead × List JSString × List JSString) :=
  s.run.map fun run => (run.phase, run.sourceHead, run.atHead, run.moved)

theorem exists_of_outcome {s : SyncSession} (phase : SyncPhase) (head : StoreHead)
    (atHead moved : List JSString) (h : s.outcome = some (phase, some head, atHead, moved)) :
    ∃ run ∈ s.run, head ∈ run.sourceHead ∧ run.phase = phase ∧ run.atHead = atHead ∧
      run.moved = moved := by
  obtain ⟨run, hrun, heq⟩ := Option.map_eq_some_iff.mp h
  simp only [Prod.mk.injEq] at heq
  exact ⟨run, hrun, heq.2.1, heq.1, heq.2.2.1, heq.2.2.2⟩

theorem sync_run_pushEvents :
    (Run.run (SyncSession.step {}) (.initial .initial .initial "s" "t") pushEvents).target.Has
      "a" := by
  have hsync := (sync_run {} (by decide) .initial .initial "s" "t" pushEvents).2
  obtain ⟨run, hrun, hhead, hphase, hatHead, hmoved⟩ := exists_of_outcome
    (s := Run.run (SyncSession.step {}) (.initial .initial .initial "s" "t") pushEvents)
    (.returned false) ⟨"s", 1⟩ ["a"] [] (by decide +kernel)
  have hhas := (hsync run hrun ⟨"s", 1⟩ hhead).1 hphase "a" (by rw [hatHead]; exact .head _)
  exact hhas.resolve_right fun hnot => absurd (hmoved ▸ hnot.1) not_mem_nil

/-! ## What a run may miss -/

/-- Another sync has the entry witnessed after the head was read and before the page is scanned. -/
def restampedEvents : List SyncEvent :=
  [.write writtenEntry, .start false true true none, .restamp writtenReceipt, .runs .scan,
    .runs .filter]

/-- A run with pages of no entries that waits for the next one. -/
structure Idles (source : Ledger) (s : SyncSession) : Prop where
  source : s.source = source
  run : ∃ run, s.run = some run ∧ run.phase = .top ∧ run.nextPage = .fetching none ∧
    run.aborted = false

/-- Such a run is given an empty page, and asks for the same page again. -/
def idleEvents : List SyncEvent := [.runs .prefetched, .runs .scan, .runs .filter]

/-- **Pages of no entries take a run nowhere.** -/
theorem Idles.cycle {source : Ledger} {o : SyncOptions} {s : SyncSession} (ho : o.scanPageSize = 0)
    (hsource : (source.scanEntriesSince none 0).hasMore = true) (h : Idles source s) :
    Run.AllSteps (SyncSession.step o) (Within o) s idleEvents ∧
      Idles source (Run.run (SyncSession.step o) s idleEvents) := by
  obtain ⟨rfl, run, hrun, hphase, hnext, habort⟩ := h
  obtain ⟨sourceHead, targetHead, bloom, cursor, nextPage, transferred, aborted, phase, atHead,
    moved⟩ := run
  subst hphase hnext habort
  let page := s.source.scanEntriesSince none 0
  let waiting (cursor : Option StoreScanCursor) (nextPage : NextPage) (phase : SyncPhase) : SyncRun :=
    ⟨sourceHead, targetHead, bloom, cursor, nextPage, transferred, false, phase, atHead, moved⟩
  let session (run : SyncRun) : SyncSession := { s with run := some run }
  have hstart : session (waiting cursor (.fetching none) .top) = s := by
    simp only [session, waiting, ← hrun]
  have hprefetched : SyncSession.step o (session (waiting cursor (.fetching none) .top))
      (.runs .prefetched) = session (waiting cursor (.fetched page) .top) := by
    change session (waiting cursor (.fetched (s.source.scanEntriesSince none o.scanPageSize)) .top) = _
    rw [ho]
  have hscan : SyncSession.step o (session (waiting cursor (.fetched page) .top)) (.runs .scan)
      = session (waiting cursor (.fetching none) (.fetched page)) := by
    change session (waiting cursor (if page.hasMore then .fetching page.nextCursor else .none)
      (.fetched page)) = _
    rw [if_pos hsource]
    rfl
  have hfilter : SyncSession.step o (session (waiting cursor (.fetching none) (.fetched page)))
      (.runs .filter) = session (waiting none (.fetching none) .top) := by
    have hreached : (waiting cursor (.fetching none) (.fetched page)).reachedScanBound page = false :=
      decide_eq_false (Nat.not_lt_zero _)
    have hempty : (waiting cursor (.fetching none) (.fetched page)).pageEntries page = [] := by
      rw [pageEntries, if_neg (Bool.eq_false_iff.mp hreached)]
      rfl
    have hendPage : (session (waiting cursor (.fetching none) (.fetched page))).endPage
        (waiting cursor (.fetching none) (.fetched page)) page
          = session (waiting none (.fetching none) .top) := by
      rw [endPage, if_neg (Bool.eq_false_iff.mp hreached)]
      exact if_pos hsource
    let received := waiting cursor (.fetching none) (.fetched page)
    change (if received.pageEntries page = [] then (session received).endPage received page
      else (session received).goes received (.filtered page
        (filterMissingIds s.target (received.candidateIds page) bloom))) = _
    rw [if_pos hempty]
    exact hendPage
  have hne : ∀ {run run' : SyncRun}, run.nextPage ≠ run'.nextPage ∨ run.phase ≠ run'.phase →
      session run ≠ session run' := by
    intro run run' hdiffers heq
    have hrun := Option.some.inj (congrArg SyncSession.run heq)
    exact hdiffers.elim (fun hnext => hnext (congrArg nextPage hrun))
      fun hphase => hphase (congrArg phase hrun)
  rw [← hstart]
  refine ⟨⟨⟨rfl, fun _ => ?_⟩, ?_⟩, ?_⟩
  · rw [hprefetched]
    exact hne (.inl (by simp [waiting]))
  · rw [hprefetched]
    refine ⟨⟨rfl, fun _ => ?_⟩, ?_⟩
    · rw [hscan]
      exact hne (.inr (by simp [waiting]))
    · rw [hscan]
      refine ⟨⟨rfl, fun _ => ?_⟩, trivial⟩
      rw [hfilter]
      exact hne (.inr (by simp [waiting]))
  · rw [idleEvents, Run.run, foldl_cons, hprefetched, foldl_cons, hscan, foldl_cons,
      hfilter]
    exact ⟨rfl, _, rfl, rfl, rfl, rfl⟩

/-- As often as one likes. -/
theorem Idles.cycles {source : Ledger} {o : SyncOptions} {s : SyncSession} (ho : o.scanPageSize = 0)
    (hsource : (source.scanEntriesSince none 0).hasMore = true) (h : Idles source s) (n : ℕ) :
    ∃ later, Run.AllSteps (SyncSession.step o) (Within o) s later ∧
      n ≤ later.countP isRun := by
  induction n generalizing s with
  | zero => exact ⟨[], trivial, le_rfl⟩
  | succ n ih =>
    obtain ⟨⟨hprefetched, hscan, hfilter, -⟩, hidles⟩ := h.cycle ho hsource
    obtain ⟨later, hlater, hcount⟩ := ih hidles
    refine ⟨idleEvents ++ later, ⟨hprefetched, hscan, hfilter, hlater⟩, ?_⟩
    have hcycle : idleEvents.countP isRun = 3 := rfl
    rw [countP_append, hcycle]
    omega

/-- **A completed run may miss an entry that was there**, where another sync re-stamps it before the
page is scanned; and a run with pages of no entries has no bound. -/
theorem not_sync_run :
    (¬∀ events, ∀ run ∈ (Run.run (SyncSession.step {}) (.initial .initial .initial "s" "t")
        events).run, run.phase = .returned false → ∀ id ∈ run.atHead,
          (Run.run (SyncSession.step {}) (.initial .initial .initial "s" "t") events).target.Has id)
      ∧ ¬∀ o events, ∃ bound, ∀ later,
        Run.AllSteps (SyncSession.step o) (Within o)
          (Run.run (SyncSession.step o) (.initial .initial .initial "s" "t") events) later →
        later.countP isRun ≤ bound := by
  constructor
  · intro h
    obtain ⟨run, hrun, -, hphase, hatHead, -⟩ := exists_of_outcome
      (s := Run.run (SyncSession.step {}) (.initial .initial .initial "s" "t") restampedEvents)
      (.returned false) ⟨"s", 1⟩ ["a"] ["a"] (by decide +kernel)
    obtain ⟨e, he, -⟩ := h restampedEvents run hrun hphase "a" (by rw [hatHead]; exact .head _)
    have hnone : (Run.run (SyncSession.step {}) (.initial .initial .initial "s" "t")
        restampedEvents).target.live = [] := by decide +kernel
    exact absurd (hnone ▸ he) not_mem_nil
  · intro h
    let o : SyncOptions := { pageSize := some 0 }
    let events : List SyncEvent :=
      [.write writtenEntry, .start false true true none, .runs .scan, .runs .filter]
    obtain ⟨bound, hbound⟩ := h o events
    have hrun : (Run.run (SyncSession.step o) (.initial .initial .initial "s" "t") events).run.map
        (fun run => (run.phase, run.nextPage, run.aborted))
          = some (SyncPhase.top, NextPage.fetching none, false) := by decide +kernel
    obtain ⟨run, hmem, heq⟩ := Option.map_eq_some_iff.mp hrun
    simp only [Prod.mk.injEq] at heq
    obtain ⟨later, hlater, hcount⟩ :=
      Idles.cycles (o := o) rfl (by decide +kernel) ⟨rfl, run, hmem, heq⟩ (bound + 1)
    exact absurd (hcount.trans (hbound later hlater)) (Nat.not_succ_le_self bound)

end MindooDB
