import MindooDB.Sync.Covered

/-!
# Sync/Complete — a completed run has transferred what there was

Every step of a run, of its workers, and of anyone else keeps what is covered (`Kept.step`).  A run
that returns without being cancelled has brought to the target what the source had at its head; an
entry that another sync re-stamped before the scan came to it stands behind that head, and no cursor
that is saved has passed it.
-/

namespace MindooDB

open Ledger List Option

/-! ## Batches and workers -/

section Lists

variable {α : Type*} {l : List α} {x y : α} {i : ℕ}

theorem eq_or_mem_eraseIdx (hx : x ∈ l) (hi : l[i]? = some y) : x = y ∨ x ∈ l.eraseIdx i := by
  obtain ⟨j, hj⟩ := mem_iff_getElem?.mp hx
  by_cases hji : j = i
  · exact .inl (some.inj ((hji ▸ hj).symm.trans hi))
  · exact .inr (mem_eraseIdx_iff_getElem?.mpr ⟨j, hji, hj⟩)

theorem eq_or_mem_set (hx : x ∈ l) (hi : l[i]? = some y) (z : α) : x = y ∨ x ∈ l.set i z := by
  obtain ⟨j, hj⟩ := mem_iff_getElem?.mp hx
  by_cases hji : i = j
  · exact .inl (some.inj ((hji ▸ hj).symm.trans (hji ▸ hi)))
  · exact .inr (mem_iff_getElem?.mpr ⟨j, (getElem?_set_ne hji).trans hj⟩)

theorem mem_set_self (hi : l[i]? = some y) (z : α) : z ∈ l.set i z :=
  mem_set (List.getElem?_eq_some_iff.mp hi).1 z

end Lists

namespace SyncOptions

variable {o : SyncOptions}

theorem resolveTransferBatchSize_pos (h : 0 < o.scanPageSize) : 0 < o.resolveTransferBatchSize := by
  unfold resolveTransferBatchSize
  split
  · exact Nat.succ_pos _
  · split
    · exact Nat.succ_pos _
    · exact lt_min h (by decide)

/-- **The batches have every id.** -/
theorem exists_mem_batches (h : 0 < o.scanPageSize) {entryIds : List JSString} {id : JSString}
    (hid : id ∈ entryIds) : ∃ batchIds ∈ o.batches entryIds, id ∈ batchIds := by
  obtain ⟨j, hj, rfl⟩ := mem_iff_getElem.mp hid
  have hsize := resolveTransferBatchSize_pos h
  have hdiv := Nat.div_add_mod j o.resolveTransferBatchSize
  have hmod := Nat.mod_lt j hsize
  refine ⟨_, List.mem_map.mpr ⟨j / o.resolveTransferBatchSize, mem_range.mpr ?_, rfl⟩, ?_⟩
  · refine lt_of_lt_of_le ?_ (le_max_right _ _)
    have hle : j + o.resolveTransferBatchSize
        ≤ entryIds.length + o.resolveTransferBatchSize - 1 := by omega
    exact (Nat.lt_succ_self _).trans_le
      ((Nat.add_div_right j hsize).symm.trans_le (Nat.div_le_div_right hle))
  · refine mem_iff_getElem?.mpr ⟨j % o.resolveTransferBatchSize, ?_⟩
    rw [getElem?_take_of_lt hmod, getElem?_drop, Nat.mul_comm, hdiv, getElem?_eq_getElem hj]

theorem mem_of_mem_batches {entryIds batchIds : List JSString} {id : JSString}
    (hbatch : batchIds ∈ o.batches entryIds) (hid : id ∈ batchIds) : id ∈ entryIds := by
  obtain ⟨index, -, rfl⟩ := List.mem_map.mp hbatch
  exact mem_of_mem_drop (mem_of_mem_take hid)

end SyncOptions

/-! ## The stores during a step -/

variable {o : SyncOptions} {s : SyncSession} {run : SyncRun} {page : StoreScanResult}

variable {source target : Ledger}

theorem SyncRun.BaseKept.grow (h : run.BaseKept s)
    (hsource : Grows s.source source) (htarget : Grows s.target target)
    (hstays : ∀ e ∈ s.source.live, e ∈ source.live ∨ target.Has e.id) :
    run.BaseKept { s with source := source, target := target } where
  sourceHead head hmem := (h.sourceHead head hmem).imp_right fun hlt => hlt.trans_le hsource.next
  targetHead := h.targetHead
  covers := h.covers.mono hsource htarget h.marks.below
  marks := h.marks.mono hsource
  transferred id hid := htarget.mem id (h.transferred id hid)
  present id hid := hsource.mem id (h.present id hid)
  atHead id hid := by
    rcases h.atHead id hid with hhas | hmoved | ⟨e, he, rfl, hle⟩
    · exact .inl (htarget.mem id hhas)
    · exact .inr (.inl hmoved)
    · rcases hstays e he with hstay | hhas
      · exact .inr (.inr ⟨e, hstay, rfl, hle⟩)
      · exact .inl hhas

namespace SyncSession

theorem RunKept.grow (h : s.RunKept o run)
    (hsource : Grows s.source source) (htarget : Grows s.target target)
    (hstays : ∀ e ∈ s.source.live, e ∈ source.live ∨ target.Has e.id) :
    RunKept o { s with source := source, target := target } run where
  toBaseKept := h.toBaseKept.grow hsource htarget hstays
  phase := h.phase.mono (fun head hmem => (h.sourceHead head hmem).2) hsource htarget

/-- **Stores may grow**, as long as what is moved is in the target. -/
theorem Kept.grow (h : s.Kept o) (hsource : Grows s.source source) (htarget : Grows s.target target)
    (hstays : ∀ e ∈ s.source.live, e ∈ source.live ∨ target.Has e.id) :
    Kept o { s with source := source, target := target } where
  records record hrecord hepoch hepoch' := by
    obtain ⟨hcovers, hmarks⟩ := h.records record hrecord hepoch hepoch'
    exact ⟨hcovers.mono hsource htarget hmarks.below, hmarks.mono hsource⟩
  run run hmem := (h.run run hmem).grow hsource htarget hstays

/-! ## The steps of a run -/

theorem Kept.receive (h : s.Kept o) (hrun : run.BaseKept s)
    (hscanned : run.Scanned o s.source run.cursor page) : (s.receive run page).Kept o := by
  have hbase : SyncRun.BaseKept s
      { run with nextPage := if page.hasMore then .fetching page.nextCursor else .none } :=
    ⟨hrun.sourceHead, hrun.targetHead, hrun.covers, hrun.marks, hrun.transferred, hrun.present,
      hrun.atHead⟩
  refine h.goes hbase ⟨hscanned, ?_⟩
  cases page.hasMore <;> simp [SyncRun.Prefetched]

end SyncSession

/-- A page that is scanned now. -/
theorem SyncRun.BaseKept.scanned (h : run.BaseKept s) {cursor : Option StoreScanCursor}
    (hmarks : Marks s.source cursor) :
    run.Scanned o s.source cursor (s.source.scanEntriesSince cursor o.scanPageSize) :=
  ⟨s.source, (Grows.refl _), hmarks, rfl, fun head hmem => (h.sourceHead head hmem).2⟩

theorem SyncRun.PageKept.has (h : run.PageKept o s.source page) {m : StoreEntryMetadata}
    (hm : m ∈ page.entries) : s.source.Has m.id := by
  obtain ⟨a, hgrows, -, rfl, -⟩ := h.scanned
  obtain ⟨⟨e, he, rfl⟩, -⟩ := Ledger.mem_live_of_mem_scan hm
  exact hgrows.mem _ ⟨e, he, rfl⟩

theorem isNone_find?_iff {a : Ledger} {id : JSString} : (a.find? id).isNone = true ↔ ¬a.Has id := by
  rw [isNone_iff_eq_none, Ledger.find?_eq_none_iff, Has]
  push Not
  rfl

variable {bloom : Option (JSString → Bool)}

/-- **No missing id is overlooked**, whatever the filter says. -/
theorem mem_filterMissingIds {candidateIds : List JSString}
    {id : JSString} (hid : id ∈ candidateIds) :
    target.Has id ∨ id ∈ filterMissingIds target candidateIds bloom := by
  by_cases hhas : target.Has id
  · exact .inl hhas
  refine .inr (mem_append.mpr ?_)
  cases hmight : bloom.all fun mightContain => mightContain id with
  | true =>
    exact .inr (mem_filter.mpr
      ⟨mem_filter.mpr ⟨hid, hmight⟩, isNone_find?_iff.mpr hhas⟩)
  | false =>
    refine .inl (mem_filter.mpr ⟨hid, ?_⟩)
    cases bloom <;> simp_all

theorem mem_of_mem_filterMissingIds {candidateIds : List JSString} {id : JSString}
    (hid : id ∈ filterMissingIds target candidateIds bloom) : id ∈ candidateIds := by
  rcases mem_append.mp hid with hid | hid
  · exact mem_of_mem_filter hid
  · exact mem_of_mem_filter (mem_of_mem_filter hid)

namespace SyncSession

theorem Kept.filter (h : s.Kept o) (hrun : run.BaseKept s) (hpage : run.PageKept o s.source page) :
    (s.goes run (.filtered page
      (filterMissingIds s.target (run.candidateIds page) run.targetBloom))).Kept o := by
  refine h.goes hrun ⟨hpage, fun m hm => ?_, fun id hid => ?_⟩
  · by_cases hdone : m.id ∈ run.transferredThisSync
    · exact .inl (hrun.transferred m.id hdone)
    · refine mem_filterMissingIds (mem_filter.mpr ⟨List.mem_map_of_mem hm, ?_⟩)
      simpa using hdone
  · obtain ⟨m, hm, rfl⟩ := List.mem_map.mp (mem_of_mem_filter (mem_of_mem_filterMissingIds hid))
    exact hpage.has (SyncRun.mem_of_mem_pageEntries hm)

/-- All of what is missing is in some batch. -/
theorem Kept.transfer (ho : 0 < o.scanPageSize) (h : s.Kept o) (hrun : run.BaseKept s)
    (hpage : run.PageKept o s.source page) {missingIds : List JSString}
    (hmissing : run.MissingKept s.source s.target page missingIds) :
    (s.goes run (.transferring page ⟨missingIds, o.batches missingIds, [], false⟩)).Kept o := by
  refine h.goes hrun ⟨hpage, hmissing, fun batchIds hbatch id hid => ?_,
    nofun, .inr (.inr fun id hid => ?_)⟩
  · exact hmissing.present id (SyncOptions.mem_of_mem_batches hbatch hid)
  · exact .inr (.inl (SyncOptions.exists_mem_batches ho hid))

/-! ## Workers -/

variable {transfer : Transfer}

/-- The workers go on. -/
theorem Kept.works (h : s.Kept o) (hrun : run.BaseKept s) (hpage : run.PageKept o s.source page)
    (hmissing : run.MissingKept s.source s.target page transfer.missingIds)
    {transfer' : Transfer} {workers : List TransferWorker}
    (hids : transfer'.missingIds = transfer.missingIds)
    (htransfer : Transfer.Kept s.source s.target run { transfer' with workers := workers }) :
    (s.works run page transfer' workers).Kept o :=
  h.goes hrun ⟨hpage, hids ▸ hmissing, htransfer⟩

theorem Kept.take (h : s.Kept o) (hrun : s.RunKept o run)
    (hphase : run.phase = .transferring page transfer) : (s.take o run page transfer).Kept o := by
  have hkept := hrun.phase
  rw [hphase] at hkept
  obtain ⟨hpage, hmissing, htransfer⟩ := hkept
  unfold SyncSession.take
  split
  · exact h
  split
  · exact h
  rename_i batchIds batches hbatches
  split
  swap
  · exact h
  refine h.works hrun.toBaseKept hpage hmissing rfl ⟨fun batch hbatch => ?_, fun worker hworker => ?_, ?_⟩
  · exact htransfer.batches batch (hbatches ▸ mem_cons_of_mem _ hbatch)
  · rcases mem_append.mp hworker with hold | hnew
    · exact htransfer.workers worker hold
    · obtain rfl := mem_singleton.mp hnew
      exact htransfer.batches batchIds (hbatches ▸ mem_cons_self)
  · refine htransfer.stored.imp_right fun hstored => hstored.imp_right fun hall id hid => ?_
    rcases hall id hid with hhas | ⟨batch, hbatch, hmem⟩ | ⟨worker, hworker, howes⟩
    · exact .inl hhas
    · rw [hbatches] at hbatch
      rcases mem_cons.mp hbatch with rfl | hbatch
      · exact .inr (.inr ⟨.fetching batch, mem_append_right _ mem_cons_self, hmem⟩)
      · exact .inr (.inl ⟨batch, hbatch, hmem⟩)
    · exact .inr (.inr ⟨worker, mem_append_left _ hworker, howes⟩)

end SyncSession

/-- A worker is replaced, or done: what it owed is in the target, or owed by another. -/
theorem Transfer.Kept.replace {transfer : Transfer}
    (h : transfer.Kept source target run) {done : TransferWorker} {workers : List TransferWorker}
    {failed : Bool} (hworkers : ∀ worker ∈ workers, worker ∈ transfer.workers ∨ worker.Kept source target)
    (hothers : ∀ worker ∈ transfer.workers, worker = done ∨ worker ∈ workers)
    (hfailed : transfer.failed = true → failed = true) (howed : failed = true ∨ run.aborted = true ∨
      ∀ id ∈ done.owes, target.Has id ∨ ∃ worker ∈ workers, id ∈ worker.owes) :
    Transfer.Kept source target run { transfer with workers := workers, failed := failed } where
  batches := h.batches
  workers worker hworker := (hworkers worker hworker).elim (h.workers worker) id
  stored := by
    rcases howed with hfail | habort | howed
    · exact .inl hfail
    · exact .inr (.inl habort)
    refine h.stored.imp hfailed fun hstored => hstored.imp_right fun hall id hid => ?_
    rcases hall id hid with hhas | hbatch | ⟨worker, hworker, howes⟩
    · exact .inl hhas
    · exact .inr (.inl hbatch)
    · rcases hothers worker hworker with rfl | hother
      · exact (howed id howes).imp_right .inr
      · exact .inr (.inr ⟨worker, hother, howes⟩)

namespace SyncSession

variable {transfer : Transfer} {i : ℕ} {worker : TransferWorker}

/-- A worker is done. -/
theorem RunKept.erase (h : s.RunKept o run) (hphase : run.phase = .transferring page transfer)
    (hworker : transfer.workers[i]? = some worker) {failed : Bool}
    (hfailed : transfer.failed = true → failed = true)
    (howed : failed = true ∨ run.aborted = true ∨ ∀ id ∈ worker.owes, s.target.Has id) :
    run.PhaseKept o s.source s.target (.transferring page
      { transfer with workers := transfer.workers.eraseIdx i, failed := failed }) := by
  have hkept := h.phase
  rw [hphase] at hkept
  obtain ⟨hpage, hmissing, htransfer⟩ := hkept
  refine ⟨hpage, hmissing, htransfer.replace
    (fun other hother => Or.inl (mem_of_mem_eraseIdx hother))
    (fun other hother => eq_or_mem_eraseIdx hother hworker) hfailed ?_⟩
  exact howed.imp_right fun howed => howed.imp_right fun hall id hid => .inl (hall id hid)

/-- A worker goes on. -/
theorem RunKept.set (h : s.RunKept o run) (hphase : run.phase = .transferring page transfer)
    (hworker : transfer.workers[i]? = some worker) {worker' : TransferWorker}
    (hkept : worker'.Kept s.source s.target)
    (howed : ∀ id ∈ worker.owes, s.target.Has id ∨ id ∈ worker'.owes) :
    run.PhaseKept o s.source s.target (.transferring page
      { transfer with workers := transfer.workers.set i worker' }) := by
  have hphaseKept := h.phase
  rw [hphase] at hphaseKept
  obtain ⟨hpage, hmissing, htransfer⟩ := hphaseKept
  refine ⟨hpage, hmissing, htransfer.replace (fun other hother => ?_)
    (fun other hother => eq_or_mem_set hother hworker worker') id
    (Or.inr (Or.inr fun id hid => (howed id hid).imp_right fun howes =>
      ⟨worker', mem_set_self hworker worker', howes⟩))⟩
  rcases mem_or_eq_of_mem_set hother with hold | rfl
  · exact .inl hold
  · exact .inr hkept

/-- Receipts for what the target has move nothing else. -/
theorem stays_foldl_witness {receipts : List StoreEntryMetadata}
    (hreceipts : ∀ receipt ∈ receipts, s.target.Has receipt.id) {e : StoreEntry}
    (he : e ∈ s.source.live) :
    e ∈ (receipts.foldl witness s.source).live ∨ s.target.Has e.id := by
  by_cases hid : ∃ receipt ∈ receipts, e.id = receipt.id
  · obtain ⟨receipt, hreceipt, heq⟩ := hid
    exact .inr (heq ▸ hreceipts receipt hreceipt)
  · push Not at hid
    exact .inl (Ledger.mem_foldl_witness he hid)

theorem Kept.advance (h : s.Kept o) (hrun : s.RunKept o run)
    (hphase : run.phase = .transferring page transfer) (i : ℕ)
    (receipts : List StoreEntryMetadata) : (s.advance run page transfer i receipts).Kept o := by
  have hworkers := hrun.phase
  rw [hphase] at hworkers
  have hworkers := hworkers.2.2.workers
  unfold SyncSession.advance
  split
  · exact h
  · rename_i batchIds hworker
    have hpresent : ∀ id ∈ batchIds, s.source.Has id :=
      hworkers _ (mem_of_getElem? hworker)
    split
    · rename_i habort
      exact h.goes hrun.toBaseKept (hrun.erase hphase hworker id (.inr (.inl habort)))
    · refine h.goes hrun.toBaseKept (hrun.set hphase hworker trivial fun id hid => .inr ?_)
      obtain ⟨e, he, rfl⟩ := hpresent id hid
      exact List.mem_map.mpr ⟨e, mem_filterMap.mpr ⟨e.id, hid, find?_eq_some_iff.mpr ⟨he, rfl⟩⟩, rfl⟩
  · rename_i batchEntries hworker
    split
    swap
    · exact h
    rename_i hreceipts
    have htarget := grows_foldl_put (a := s.target) batchEntries
    have hstored : ∀ id ∈ batchEntries.map (·.id),
        (batchEntries.foldl put s.target).Has id := by
      intro id hid
      obtain ⟨entry, hentry, rfl⟩ := List.mem_map.mp hid
      exact has_foldl_put hentry
    have hgrown := hrun.grow (Grows.refl s.source) htarget fun e he => .inl he
    refine (h.grow (Grows.refl s.source) htarget fun e he => .inl he).goes
      hgrown.toBaseKept (hgrown.set hphase hworker (fun receipt hreceipt => ?_) fun id hid => ?_)
    · exact hstored _ (hreceipts receipt hreceipt)
    · exact .inl (hstored id hid)
  · rename_i receipts hworker
    have hreceipts : ∀ receipt ∈ receipts, s.target.Has receipt.id :=
      hworkers _ (mem_of_getElem? hworker)
    have hsource := grows_foldl_witness (a := s.source) receipts
    have hgrown := hrun.grow hsource (Grows.refl s.target)
      fun e he => stays_foldl_witness hreceipts he
    exact (h.grow hsource (Grows.refl s.target)
      fun e he => stays_foldl_witness hreceipts he).goes hgrown.toBaseKept
      (hgrown.erase hphase hworker id (.inr (.inr nofun)))

/-- **A batch that fails** stores a part of it, or moves a part of what is stored. -/
theorem Kept.batchFails (h : s.Kept o) (hrun : s.RunKept o run)
    (hphase : run.phase = .transferring page transfer) (i done : ℕ) :
    (s.batchFails run page transfer i done).Kept o := by
  have hworkers := hrun.phase
  rw [hphase] at hworkers
  have hworkers := hworkers.2.2.workers
  have hfailed : transfer.failed = true → (transfer.failed || !run.aborted) = true :=
    fun hfail => by rw [hfail, Bool.true_or]
  have howed : ∀ {p : Prop}, (transfer.failed || !run.aborted) = true ∨ run.aborted = true ∨ p := by
    intro p
    cases run.aborted <;> simp
  unfold SyncSession.batchFails
  split
  · exact h
  · rename_i hworker
    exact h.goes hrun.toBaseKept (hrun.erase hphase hworker hfailed howed)
  · rename_i batchEntries hworker
    have htarget := grows_foldl_put (a := s.target) (batchEntries.take done)
    have hgrown := hrun.grow (Grows.refl s.source) htarget fun e he => .inl he
    exact (h.grow (Grows.refl s.source) htarget fun e he => .inl he).goes
      hgrown.toBaseKept (hgrown.erase hphase hworker hfailed howed)
  · rename_i receipts hworker
    have hreceipts : ∀ receipt ∈ receipts.take done, s.target.Has receipt.id :=
      fun receipt hreceipt =>
        hworkers _ (mem_of_getElem? hworker) receipt (mem_of_mem_take hreceipt)
    have hsource := grows_foldl_witness (a := s.source) (receipts.take done)
    have hgrown := hrun.grow hsource (Grows.refl s.target)
      fun e he => stays_foldl_witness hreceipts he
    exact (h.grow hsource (Grows.refl s.target)
      fun e he => stays_foldl_witness hreceipts he).goes hgrown.toBaseKept
      (hgrown.erase hphase hworker hfailed howed)

theorem Kept.settle (h : s.Kept o) (hrun : s.RunKept o run)
    (hphase : run.phase = .transferring page transfer) : (s.settle run page transfer).Kept o := by
  have hkept := hrun.phase
  rw [hphase] at hkept
  obtain ⟨hpage, hmissing, htransfer⟩ := hkept
  unfold SyncSession.settle
  split
  swap
  · exact h
  rename_i hdone
  obtain ⟨hworkers, hstops⟩ := Bool.and_eq_true_iff.mp hdone
  split
  · exact h.returns hrun.toBaseKept fun hnot => Bool.noConfusion hnot
  rename_i habort
  split
  · exact h.goes hrun.toBaseKept trivial
  rename_i hfailed
  -- the workers are done, and left no batch
  have hstored : ∀ id ∈ transfer.missingIds, s.target.Has id := by
    intro id hid
    have hall := (htransfer.stored.resolve_left hfailed).resolve_left habort id hid
    rw [SyncSession.stops, Bool.eq_false_iff.mpr hfailed, Bool.eq_false_iff.mpr habort,
      Bool.or_false, Bool.or_false, List.isEmpty_iff] at hstops
    rw [List.isEmpty_iff] at hworkers
    rw [hstops, hworkers] at hall
    simpa using hall
  refine h.endPage ⟨hrun.sourceHead, hrun.targetHead, hrun.covers, hrun.marks, fun id hid => ?_,
    hrun.present, hrun.atHead⟩ ⟨hpage.scanned, hpage.prefetched⟩ fun m hm => ?_
  · exact (mem_append.mp hid).elim (hrun.transferred id) (hstored id)
  · exact (hmissing.missing m hm).elim id (hstored m.id)

/-! ## All steps -/

/-- A page that was asked for arrives. -/
theorem Kept.prefetched (h : s.Kept o) (hrun : s.RunKept o run) (hended : run.ended = false)
    {cursor : Option StoreScanCursor} (hnext : run.nextPage = .fetching cursor) :
    Kept o { s with run := some { run with
      nextPage := .fetched (s.source.scanEntriesSince cursor o.scanPageSize) } } where
  records := h.records
  run run' hmem := by
    obtain rfl := some.inj hmem
    have hbase := hrun.toBaseKept
    have hscanned : ∀ {next : Option StoreScanCursor}, Marks s.source next →
        run.Prefetched o s.source next → run.Scanned o s.source next
          (s.source.scanEntriesSince cursor o.scanPageSize) := by
      intro next hmarks hprefetched
      rw [SyncRun.Prefetched, hnext] at hprefetched
      subst hprefetched
      exact hbase.scanned hmarks
    have hpage : ∀ {page : StoreScanResult}, run.PageKept o s.source page →
        SyncRun.PageKept o s.source { run with
          nextPage := .fetched (s.source.scanEntriesSince cursor o.scanPageSize) } page := by
      intro page hkept
      have hmarks := hkept.scanned.marks_cursorAfterPage fun _ hm => hm
      rw [← hkept.scanned.nextCursor_eq] at hmarks
      exact ⟨hkept.scanned, hscanned hmarks hkept.prefetched⟩
    suffices hphases : ∀ phase, run.phase = phase → run.PhaseKept o s.source s.target phase →
        SyncRun.PhaseKept o s.source s.target { run with
          nextPage := .fetched (s.source.scanEntriesSince cursor o.scanPageSize) } phase from
      ⟨⟨hbase.sourceHead, hbase.targetHead, hbase.covers, hbase.marks, hbase.transferred,
        hbase.present, hbase.atHead⟩, hphases run.phase rfl hrun.phase⟩
    intro phase hphase hkept
    cases phase with
    | top => exact hscanned hbase.marks hkept
    | fetched page => exact hpage hkept
    | filtered page missingIds => exact ⟨hpage hkept.1, hkept.2.missing, hkept.2.present⟩
    | transferring page transfer =>
      exact ⟨hpage hkept.1, ⟨hkept.2.1.missing, hkept.2.1.present⟩, hkept.2.2.batches,
        hkept.2.2.workers, hkept.2.2.stored⟩
    | returned cancelled | thrown => simp [SyncRun.ended, hphase] at hended

theorem Kept.runStep (ho : 0 < o.scanPageSize) (h : s.Kept o) (hrun : s.RunKept o run)
    (event : SyncRunEvent) : (s.runStep o run event).Kept o := by
  have hcancelled : (s.returns run true).Kept o :=
    h.returns hrun.toBaseKept fun hnot => Bool.noConfusion hnot
  have hkept := hrun.phase
  unfold SyncSession.runStep
  split
  · -- scan
    rename_i hphase
    rw [hphase] at hkept
    split
    · exact hcancelled
    split
    · exact h.receive hrun.toBaseKept (hrun.toBaseKept.scanned hrun.marks)
    · exact h
    · rename_i page hnext
      simp only [SyncRun.PhaseKept, SyncRun.Prefetched, hnext] at hkept
      exact h.receive hrun.toBaseKept hkept
  · -- filter
    rename_i page hphase
    rw [hphase] at hkept
    split
    · exact hcancelled
    split
    · rename_i hempty
      exact h.endPage hrun.toBaseKept hkept fun m hm => nomatch hempty ▸ hm
    · exact h.filter hrun.toBaseKept hkept
  · -- proceed
    rename_i page missingIds hphase
    rw [hphase] at hkept
    obtain ⟨hpage, hmissing⟩ := hkept
    split
    · exact hcancelled
    split
    · rename_i hempty
      exact h.endPage hrun.toBaseKept hpage fun m hm =>
        (hmissing.missing m hm).resolve_right (hempty ▸ not_mem_nil)
    · exact h.transfer ho hrun.toBaseKept hpage hmissing
  · rename_i hphase
    exact h.take hrun hphase
  · rename_i hphase
    exact h.advance hrun hphase _ _
  · rename_i hphase
    exact h.batchFails hrun hphase _ _
  · rename_i hphase
    exact h.settle hrun hphase
  · exact h.goes hrun.toBaseKept trivial
  · exact h.goes hrun.toBaseKept trivial
  · split
    · rename_i hended hnext
      exact h.prefetched hrun hended hnext
    · exact h
  · exact h

theorem mem_begins {read : Bool} {epoch : JSString} {max : ℤ} {head : StoreHead}
    (h : head ∈ if read then some (⟨epoch, max⟩ : StoreHead) else none) : head = ⟨epoch, max⟩ := by
  cases read with
  | true => exact (some.inj h).symm
  | false => exact nomatch h

/-- At its head the source has all of its numbers. -/
theorem baseKept_begins (s : SyncSession) (sourceHeadRead targetHeadRead : Bool)
    (targetBloom : Option (JSString → Bool)) :
    (s.begins sourceHeadRead targetHeadRead targetBloom).BaseKept s where
  sourceHead head hhead := by
    rw [mem_begins hhead]
    refine ⟨rfl, ?_⟩
    change s.source.next - 1 < s.source.next
    omega
  targetHead head hhead := by rw [mem_begins hhead]
  covers := coversUpTo_zero s.source s.target
  marks := ⟨s.source.next_pos, fun _ hc => absurd hc (by simp [begins])⟩
  transferred id hid := nomatch hid
  present id hid := by
    obtain ⟨e, he, rfl⟩ := List.mem_map.mp hid
    exact ⟨e, he, rfl⟩
  atHead id hid := by
    obtain ⟨e, he, rfl⟩ := List.mem_map.mp hid
    refine .inr (.inr ⟨e, he, rfl, fun head hhead => ?_⟩)
    rw [mem_begins hhead]
    exact Int.le_sub_one_of_lt (s.source.order_lt he)

/-- **A run begins** with a record that is covered, or from the start. -/
theorem Kept.resume (h : s.Kept o) (hrun : run.BaseKept s) (hnext : run.nextPage = .none)
    (hphase : run.phase = .top) {persisted : Option SyncScanCursor}
    (hpersisted : ∀ record ∈ persisted, record ∈ s.records) :
    (s.resume run persisted).Kept o := by
  have htop : ∀ {cursor : Option StoreScanCursor},
      SyncRun.PhaseKept o s.source s.target { run with cursor := cursor } run.phase := by
    intro cursor
    rw [hphase, SyncRun.PhaseKept, SyncRun.Prefetched, hnext]
    trivial
  unfold SyncSession.resume
  split
  · rename_i record sourceHead targetHead hsource htarget
    split
    · rename_i hepochs
      rw [(hrun.sourceHead sourceHead hsource).1, hrun.targetHead targetHead htarget] at hepochs
      obtain ⟨hcovers, hmarks⟩ := h.records record (hpersisted record rfl) hepochs.1 hepochs.2
      split
      · rename_i hskip
        refine h.goes hrun fun head hhead e he hle => hcovers e he ?_
        rw [some.inj (hhead.symm.trans hsource)] at hle
        exact hle.trans hskip
      · refine ⟨h.records, fun run' hmem => ?_⟩
        obtain rfl := some.inj hmem
        exact ⟨⟨hrun.sourceHead, hrun.targetHead, hcovers, hmarks, hrun.transferred, hrun.present,
          hrun.atHead⟩, htop⟩
    · refine ⟨fun held hheld => h.records held ?_, fun run' hmem => ?_⟩
      · obtain ⟨checkpoint, hmem, heq⟩ := mem_filterMap.mp hheld
        rcases mem_cons.mp hmem with rfl | hmem
        · exact nomatch heq
        · exact mem_filterMap.mpr ⟨checkpoint, mem_cons_of_mem _ hmem, heq⟩
      · obtain rfl := some.inj hmem
        exact ⟨⟨hrun.sourceHead, hrun.targetHead, hrun.covers, hrun.marks, hrun.transferred,
          hrun.present, hrun.atHead⟩, htop⟩
  · refine ⟨h.records, fun run' hmem => ?_⟩
    obtain rfl := some.inj hmem
    exact ⟨⟨hrun.sourceHead, hrun.targetHead, hrun.covers, hrun.marks, hrun.transferred,
      hrun.present, hrun.atHead⟩, htop⟩

/-- What another sync re-stamps is noted as moved. -/
theorem Kept.restamp (h : s.Kept o) (receipt : StoreEntryMetadata) :
    (s.step o (.restamp receipt)).Kept o where
  records record hrecord hepoch hepoch' := by
    obtain ⟨hcovers, hmarks⟩ := h.records record hrecord hepoch hepoch'
    exact ⟨hcovers.mono (Ledger.grows_witness receipt) (Grows.refl _) hmarks.below,
      hmarks.mono (Ledger.grows_witness receipt)⟩
  run run' hmem := by
    obtain ⟨run, hrun, rfl⟩ := map_eq_some_iff.mp hmem
    have hkept := h.run run hrun
    have hgrows : Grows s.source (s.source.witness receipt) := Ledger.grows_witness receipt
    have hphase := hkept.phase.mono (fun head hhead => (hkept.sourceHead head hhead).2) hgrows
      (Grows.refl s.target)
    refine ⟨⟨fun head hhead => ?_, hkept.targetHead,
      hkept.covers.mono hgrows (Grows.refl _) hkept.marks.below, hkept.marks.mono hgrows,
      hkept.transferred, fun id hid => hgrows.mem id (hkept.present id hid), fun id hid => ?_⟩,
      hphase.withFlags id (receipt.id :: run.moved)⟩
    · exact (hkept.sourceHead head hhead).imp_right fun hlt => hlt.trans_le hgrows.next
    · rcases hkept.atHead id hid with hhas | hmoved | ⟨e, he, rfl, hle⟩
      · exact .inl hhas
      · exact .inr (.inl (mem_cons_of_mem _ hmoved))
      · by_cases heq : e.id = receipt.id
        · exact .inr (.inl (heq ▸ mem_cons_self))
        · exact .inr (.inr ⟨e, Ledger.mem_witness he heq, rfl, hle⟩)

theorem Kept.abort (h : s.Kept o) : (s.step o .abort).Kept o where
  records := h.records
  run run' hmem := by
    obtain ⟨run, hrun, rfl⟩ := map_eq_some_iff.mp hmem
    have hkept := h.run run hrun
    exact ⟨⟨hkept.sourceHead, hkept.targetHead, hkept.covers, hkept.marks, hkept.transferred,
      hkept.present, hkept.atHead⟩, hkept.phase.withFlags (fun _ => rfl) run.moved⟩

/-- **Every step keeps what is covered.** -/
theorem Kept.step (ho : 0 < o.scanPageSize) (h : s.Kept o) (event : SyncEvent) :
    (s.step o event).Kept o := by
  cases event with
  | write entry =>
    exact h.grow (Ledger.grows_put entry) (Grows.refl s.target)
      fun e he => .inl (Ledger.mem_put he)
  | restamp receipt => exact h.restamp receipt
  | targetPut entry =>
    exact h.grow (Grows.refl s.source) (Ledger.grows_put entry) fun e he => .inl he
  | targetRestamp receipt =>
    exact h.grow (Grows.refl s.source) (Ledger.grows_witness receipt)
      fun e he => .inl he
  | flush =>
    refine ⟨fun record hrecord => h.records record ?_, fun run hmem => ?_⟩
    swap
    · have hkept := h.run run hmem
      exact ⟨⟨hkept.sourceHead, hkept.targetHead, hkept.covers, hkept.marks, hkept.transferred,
        hkept.present, hkept.atHead⟩, hkept.phase⟩
    obtain ⟨held, hheld, heq⟩ := mem_filterMap.mp hrecord
    refine mem_filterMap.mpr ⟨held, ?_, heq⟩
    rcases mem_cons.mp hheld with rfl | hheld
    · exact mem_cons_self
    · exact hheld
  | restore checkpoint =>
    rw [SyncSession.step]
    split
    · exact h
    · rename_i record hcheckpoint
      refine ⟨fun held hheld => h.records held ?_, fun run hmem => absurd hmem (by simp)⟩
      obtain ⟨held', hheld', heq⟩ := mem_filterMap.mp hheld
      refine mem_filterMap.mpr ⟨held', mem_cons_of_mem _ ?_, heq⟩
      rcases mem_cons.mp hheld' with rfl | hheld'
      · exact mem_of_getElem? hcheckpoint
      · exact hheld'
  | renewSource source epoch =>
    rw [SyncSession.step]
    split
    · rename_i hfresh
      exact ⟨fun record hrecord hepoch => absurd hepoch (hfresh.2 record hrecord),
        fun run hmem => absurd hmem (by simp)⟩
    · exact h
  | renewTarget target epoch =>
    rw [SyncSession.step]
    split
    · rename_i hfresh
      exact ⟨fun record hrecord _ hepoch => absurd hepoch (hfresh.2 record hrecord),
        fun run hmem => absurd hmem (by simp)⟩
    · exact h
  | start forceFullScan sourceHeadRead targetHeadRead targetBloom =>
    rw [SyncSession.step]
    split
    · refine h.resume (baseKept_begins s sourceHeadRead targetHeadRead targetBloom) rfl rfl
        fun record hrecord => ?_
      cases forceFullScan with
      | true => exact nomatch hrecord
      | false => exact mem_filterMap.mpr ⟨s.record, mem_cons_self, hrecord⟩
    · exact h
  | abort => exact h.abort
  | runs event =>
    rw [SyncSession.step]
    split
    · exact h
    · rename_i run hrun
      exact h.runStep ho (h.run run hrun) event

end SyncSession

end MindooDB
