import MindooDB.Sync.Transfer

/-!
# Sync/Covered — what a cursor stands for

A cursor covers what the source has up to it: the target has all of that (`CoversUpTo`).  A page that was
scanned some time ago extends what is covered once its entries are in the target
(`Scanned.covers`), so every cursor that a run saves is covered, and so is the head of the source
when the run returns.
-/

namespace MindooDB

open List Option SyncRun

open Ledger (Grows Has reached)

/-- **The target has all that the source has up to a number.** -/
def CoversUpTo (source target : Ledger) (n : ℤ) : Prop :=
  ∀ e ∈ source.live, e.order ≤ n → target.Has e.id

/-- What is covered stays so: later entries have later numbers. -/
theorem CoversUpTo.mono {source target source' target' : Ledger} {n : ℤ}
    (h : CoversUpTo source target n) (hsource : Grows source source') (htarget : Grows target target')
    (hn : n < source.next) : CoversUpTo source' target' n := by
  intro e he hle
  obtain ⟨e', he', hid, horder⟩ := hsource.old e he (hle.trans_lt hn)
  exact hid ▸ htarget.mem _ (h e' he' (horder.trans_le hle))

theorem coversUpTo_zero (source target : Ledger) : CoversUpTo source target 0 := by
  intro e he hle
  obtain ⟨r, hr, hone, -⟩ := source.numbered e he
  rw [StoreEntryMetadata.order, hr, getD_some] at hle
  omega

/-- A cursor of a store: its number was that of the entry it names. -/
structure Marks (source : Ledger) (cursor : Option StoreScanCursor) : Prop where
  below : reached cursor < source.next
  names : ∀ c ∈ cursor, ∀ e ∈ source.live, e.order = c.receiptOrder → e.id = c.id

variable {cursor : Option StoreScanCursor} {m : StoreEntryMetadata} {phase : SyncPhase}

theorem Marks.mono {source source' : Ledger}
    (h : Marks source cursor) (hsource : Grows source source') : Marks source' cursor where
  below := h.below.trans_le hsource.next
  names c hc e he horder := by
    have hbelow := h.below
    rw [mem_def] at hc
    subst hc
    obtain ⟨e', he', hid, horder'⟩ := hsource.old e he (horder ▸ hbelow)
    exact hid.symm.trans (h.names c rfl e' he' (horder'.trans horder))

/-- The scan from such a cursor has later numbers only. -/
theorem Marks.reached_lt {source : Ledger} {limit : ℕ} (h : Marks source cursor)
    (hm : m ∈ (source.scanEntriesSince cursor limit).entries) : reached cursor < m.order := by
  obtain ⟨⟨e, he, rfl⟩, hafter⟩ := Ledger.mem_live_of_mem_scan hm
  cases cursor with
  | none =>
    obtain ⟨r, hr, hone, -⟩ := source.numbered e he
    rw [StoreEntryMetadata.order, hr]
    exact hone
  | some c =>
    refine (hafter c rfl).resolve_right fun heq => ?_
    exact heq.2.ne' (h.names c rfl e he heq.1.symm)

/-! ## What a run keeps -/

namespace SyncRun

/-- A page of the source as it was some time after its head was read. -/
def Scanned (o : SyncOptions) (source : Ledger) (run : SyncRun) (cursor : Option StoreScanCursor)
    (page : StoreScanResult) : Prop :=
  ∃ a : Ledger, Grows a source ∧ Marks a cursor ∧ page = a.scanEntriesSince cursor o.scanPageSize ∧
    ∀ head ∈ run.sourceHead, head.maxReceiptOrder < a.next

/-- The page that was asked for begins at the cursor. -/
def Prefetched (o : SyncOptions) (source : Ledger) (run : SyncRun)
    (cursor : Option StoreScanCursor) : Prop :=
  match run.nextPage with
  | .none => True
  | .fetching cursor' => cursor' = cursor
  | .fetched page => run.Scanned o source cursor page

/-- The page at hand. -/
structure PageKept (o : SyncOptions) (source : Ledger) (run : SyncRun) (page : StoreScanResult) :
    Prop where
  scanned : run.Scanned o source run.cursor page
  prefetched : run.Prefetched o source page.nextCursor

/-- What is missing of a page is in the source. -/
structure MissingKept (source target : Ledger) (run : SyncRun) (page : StoreScanResult)
    (missingIds : List JSString) : Prop where
  missing : ∀ m ∈ run.pageEntries page, target.Has m.id ∨ m.id ∈ missingIds
  present : ∀ id ∈ missingIds, source.Has id

end SyncRun

/-- What a worker still has to store. -/
def TransferWorker.owes : TransferWorker → List JSString
  | .fetching batchIds => batchIds
  | .putting batchEntries => batchEntries.map (·.id)
  | .witnessing _ => []

/-- Receipts are for what the target has. -/
def TransferWorker.Kept (source target : Ledger) : TransferWorker → Prop
  | .fetching batchIds => ∀ id ∈ batchIds, source.Has id
  | .putting _ => True
  | .witnessing receipts => ∀ receipt ∈ receipts, target.Has receipt.id

/-- A transfer has stored what it does not owe, unless it stops early. -/
structure Transfer.Kept (source target : Ledger) (run : SyncRun) (transfer : Transfer) : Prop where
  batches : ∀ batchIds ∈ transfer.batches, ∀ id ∈ batchIds, source.Has id
  workers : ∀ worker ∈ transfer.workers, worker.Kept source target
  stored : transfer.failed = true ∨ run.aborted = true ∨ ∀ id ∈ transfer.missingIds,
    target.Has id ∨ (∃ batchIds ∈ transfer.batches, id ∈ batchIds) ∨
      ∃ worker ∈ transfer.workers, id ∈ worker.owes

namespace SyncRun

/-- What holds of a run in a phase. -/
def PhaseKept (o : SyncOptions) (source target : Ledger) (run : SyncRun) : SyncPhase → Prop
  | .top => run.Prefetched o source run.cursor
  | .fetched page => run.PageKept o source page
  | .filtered page missingIds =>
    run.PageKept o source page ∧ run.MissingKept source target page missingIds
  | .transferring page transfer =>
    run.PageKept o source page ∧ run.MissingKept source target page transfer.missingIds ∧
      transfer.Kept source target run
  | .returned false => ∀ head ∈ run.sourceHead, CoversUpTo source target head.maxReceiptOrder
  | .returned true | .thrown => True

/-- What holds of a run wherever it is. -/
structure BaseKept (s : SyncSession) (run : SyncRun) : Prop where
  sourceHead : ∀ head ∈ run.sourceHead,
    head.epoch = s.sourceEpoch ∧ head.maxReceiptOrder < s.source.next
  targetHead : ∀ head ∈ run.targetHead, head.epoch = s.targetEpoch
  covers : CoversUpTo s.source s.target (reached run.cursor)
  marks : Marks s.source run.cursor
  transferred : ∀ id ∈ run.transferredThisSync, s.target.Has id
  present : ∀ id ∈ run.atHead, s.source.Has id
  /-- What the source had is in the target, or moved, or has its number still. -/
  atHead : ∀ id ∈ run.atHead, s.target.Has id ∨ id ∈ run.moved ∨
    ∃ e ∈ s.source.live, e.id = id ∧ ∀ head ∈ run.sourceHead, e.order ≤ head.maxReceiptOrder

end SyncRun

namespace SyncSession

structure RunKept (o : SyncOptions) (s : SyncSession) (run : SyncRun) : Prop
    extends BaseKept s run where
  phase : run.PhaseKept o s.source s.target run.phase

/-- **Records and runs are covered.** -/
structure Kept (o : SyncOptions) (s : SyncSession) : Prop where
  records : ∀ record ∈ s.records,
    record.sourceEpoch = s.sourceEpoch → record.targetEpoch = s.targetEpoch →
      CoversUpTo s.source s.target record.cursor.receiptOrder ∧ Marks s.source (some record.cursor)
  run : ∀ run ∈ s.run, s.RunKept o run

end SyncSession

/-! ## Stores that grow -/

variable {o : SyncOptions} {source target source' target' : Ledger} {run : SyncRun}

namespace SyncRun

theorem Scanned.mono {page : StoreScanResult}
    (h : run.Scanned o source cursor page) (hsource : Grows source source') :
    run.Scanned o source' cursor page := by
  obtain ⟨a, hgrows, hmarks, hpage, hhead⟩ := h
  exact ⟨a, hgrows.trans hsource, hmarks, hpage, hhead⟩

theorem Prefetched.mono (h : run.Prefetched o source cursor)
    (hsource : Grows source source') : run.Prefetched o source' cursor := by
  unfold Prefetched at h ⊢
  split at h
  · trivial
  · exact h
  · exact h.mono hsource

theorem PageKept.mono {page : StoreScanResult} (h : run.PageKept o source page)
    (hsource : Grows source source') : run.PageKept o source' page :=
  ⟨h.scanned.mono hsource, h.prefetched.mono hsource⟩

theorem MissingKept.mono {page : StoreScanResult} {missingIds : List JSString}
    (h : run.MissingKept source target page missingIds) (hsource : Grows source source')
    (htarget : Grows target target') : run.MissingKept source' target' page missingIds where
  missing m hm := (h.missing m hm).imp_left (htarget.mem _)
  present id hid := hsource.mem id (h.present id hid)

end SyncRun

theorem TransferWorker.Kept.mono {worker : TransferWorker} (h : worker.Kept source target)
    (hsource : Grows source source') (htarget : Grows target target') :
    worker.Kept source' target' := by
  cases worker with
  | fetching batchIds => exact fun id hid => hsource.mem id (h id hid)
  | putting batchEntries => trivial
  | witnessing receipts => exact fun receipt hreceipt => htarget.mem _ (h receipt hreceipt)

theorem Transfer.Kept.mono {transfer : Transfer} (h : transfer.Kept source target run)
    (hsource : Grows source source') (htarget : Grows target target') :
    transfer.Kept source' target' run where
  batches batchIds hbatch id hid := hsource.mem id (h.batches batchIds hbatch id hid)
  workers worker hworker := (h.workers worker hworker).mono hsource htarget
  stored := h.stored.imp_right fun hstored => hstored.imp_right fun hall id hid =>
    (hall id hid).imp_left (htarget.mem id)

section

variable (h : run.PhaseKept o source target phase)

include h

theorem SyncRun.PhaseKept.mono (hhead : ∀ head ∈ run.sourceHead, head.maxReceiptOrder < source.next)
    (hsource : Grows source source') (htarget : Grows target target') :
    run.PhaseKept o source' target' phase := by
  unfold PhaseKept at h ⊢
  split at h
  · exact h.mono hsource
  · exact h.mono hsource
  · exact ⟨h.1.mono hsource, h.2.mono hsource htarget⟩
  · exact ⟨h.1.mono hsource, h.2.1.mono hsource htarget, h.2.2.mono hsource htarget⟩
  · exact fun head hmem => (h head hmem).mono hsource htarget (hhead head hmem)
  · trivial
  · trivial

/-- What holds in a phase does not depend on the one the run is in. -/
theorem SyncRun.PhaseKept.withPhase (phase' : SyncPhase) :
    PhaseKept o source target { run with phase := phase' } phase := by
  unfold PhaseKept at h ⊢
  split at h
  · exact h
  · exact ⟨h.1, h.2⟩
  · exact ⟨⟨h.1.1, h.1.2⟩, h.2.1, h.2.2⟩
  · exact ⟨⟨h.1.1, h.1.2⟩, ⟨h.2.1.1, h.2.1.2⟩, h.2.2.1, h.2.2.2, h.2.2.3⟩
  · exact h
  · trivial
  · trivial

/-- …nor on what others have moved, and an abort only allows more. -/
theorem SyncRun.PhaseKept.withFlags {aborted : Bool}
    (haborted : run.aborted = true → aborted = true) (moved : List JSString) :
    PhaseKept o source target { run with aborted := aborted, moved := moved } phase := by
  unfold PhaseKept at h ⊢
  split at h
  · exact h
  · exact ⟨h.1, h.2⟩
  · exact ⟨⟨h.1.1, h.1.2⟩, h.2.1, h.2.2⟩
  · exact ⟨⟨h.1.1, h.1.2⟩, ⟨h.2.1.1, h.2.1.2⟩, h.2.2.1, h.2.2.2,
      h.2.2.3.imp_right fun hstored => hstored.imp_left haborted⟩
  · exact h
  · trivial
  · trivial

end

/-! ## A page that is in the target -/

/-- **What a page extends**: where its entries up to a number are in the target, and the page goes
as far as that number, it is covered. -/
theorem SyncRun.Scanned.covers {page : StoreScanResult} {n : ℤ}
    (h : run.Scanned o source cursor page) (hcursor : CoversUpTo source target (reached cursor))
    (hentries : ∀ m ∈ page.entries, m.order ≤ n → target.Has m.id)
    (hend : page.hasMore = true → ∃ last ∈ page.entries, n ≤ last.order)
    (hn : (∃ last ∈ page.entries, n ≤ last.order) ∨ n ∈ run.scanUpperBound) :
    CoversUpTo source target n := by
  obtain ⟨a, hgrows, -, rfl, hhead⟩ := h
  have hnext : n < a.next := by
    rcases hn with ⟨last, hlast, hle⟩ | hbound
    · obtain ⟨⟨e, he, rfl⟩, -⟩ := Ledger.mem_live_of_mem_scan hlast
      exact hle.trans_lt (a.order_lt he)
    · obtain ⟨head, hmem, rfl⟩ := map_eq_some_iff.mp hbound
      exact hhead head hmem
  intro e he hle
  by_cases hbefore : e.order ≤ reached cursor
  · exact hcursor e he hbefore
  obtain ⟨e', he', hid, horder⟩ := hgrows.old e he (hle.trans_lt hnext)
  have hpage : e'.toStoreEntryMetadata ∈ (a.scanEntriesSince cursor o.scanPageSize).entries :=
    Ledger.mem_scan he' (horder ▸ not_le.mp hbefore) fun hmore => by
      obtain ⟨last, hlast, hlastOrder⟩ := hend hmore
      exact ⟨last, hlast, (horder.trans_le hle).trans hlastOrder⟩
  exact hid ▸ hentries _ hpage (horder.trans_le hle)

namespace SyncRun

variable {page : StoreScanResult}

theorem mem_pageEntries (hm : m ∈ page.entries)
    (hbound : ∀ bound ∈ run.scanUpperBound, m.order ≤ bound) : m ∈ run.pageEntries page := by
  unfold pageEntries
  split
  · refine mem_filter.mpr ⟨hm, ?_⟩
    cases hscan : run.scanUpperBound with
    | none => rfl
    | some bound => exact decide_eq_true (hbound bound hscan)
  · exact hm

theorem mem_of_mem_pageEntries (hm : m ∈ run.pageEntries page) :
    m ∈ page.entries := by
  unfold pageEntries at hm
  split at hm
  · exact mem_of_mem_filter hm
  · exact hm

/-- A page that was clamped goes beyond the bound. -/
theorem exists_beyond (h : run.reachedScanBound page = true) :
    ∃ bound ∈ run.scanUpperBound, (∃ last ∈ page.entries, bound < last.order) ∧
      ∀ m ∈ run.pageEntries page, m.order ≤ bound := by
  have hlt : (run.inBound page).length < page.entries.length := of_decide_eq_true h
  cases hscan : run.scanUpperBound with
  | none => simp [inBound, hscan] at hlt
  | some bound =>
    refine ⟨bound, rfl, ?_, fun m hm => ?_⟩
    · by_contra! hnone
      refine hlt.ne (congrArg List.length (filter_eq_self.mpr fun m hm => ?_))
      simpa [hscan] using hnone m hm
    · rw [pageEntries, if_pos h, inBound, hscan] at hm
      simpa using (mem_filter.mp hm).2

/-- A page that was not clamped is within the bound. -/
theorem order_le_bound (h : run.reachedScanBound page = false)
    (hm : m ∈ page.entries) : ∀ bound ∈ run.scanUpperBound, m.order ≤ bound := by
  intro bound hscan
  have hle : page.entries.length ≤ (run.inBound page).length :=
    not_lt.mp (of_decide_eq_false h)
  have heq : run.inBound page = page.entries :=
    List.Sublist.eq_of_length_le filter_sublist hle
  rw [← heq, inBound] at hm
  have hall := (mem_filter.mp hm).2
  rw [mem_def] at hscan
  simpa [hscan] using hall

theorem Scanned.nextCursor_eq (h : run.Scanned o source cursor page) :
    page.nextCursor = cursorAfterPage page.entries cursor := by
  obtain ⟨a, -, -, rfl, -⟩ := h
  rfl

/-- **The cursor after some entries of a page** is one of the source… -/
theorem Scanned.marks_cursorAfterPage
    (h : run.Scanned o source cursor page) {entries : List StoreEntryMetadata}
    (hsub : ∀ m ∈ entries, m ∈ page.entries) : Marks source (cursorAfterPage entries cursor) := by
  obtain ⟨a, hgrows, hmarks, rfl, -⟩ := h
  refine Marks.mono ?_ hgrows
  cases hlast : entries.getLast? with
  | none =>
    rw [cursorAfterPage, hlast]
    exact hmarks
  | some last =>
    obtain ⟨⟨e, he, rfl⟩, -⟩ :=
      Ledger.mem_live_of_mem_scan (hsub last (mem_of_mem_getLast? hlast))
    rw [cursorAfterPage, hlast]
    refine ⟨a.order_lt he, fun c hc e' he' horder => ?_⟩
    obtain rfl := some.inj hc
    rw [Ledger.eq_of_order_eq he' he horder]
    rfl

/-- …and covered, with what the page has up to there. -/
theorem Scanned.covers_cursorAfterPage
    (h : run.Scanned o source cursor page) (hcursor : CoversUpTo source target (reached cursor))
    {entries : List StoreEntryMetadata} (hsub : ∀ m ∈ entries, m ∈ page.entries)
    (hentries : ∀ last ∈ entries.getLast?, ∀ m ∈ page.entries, m.order ≤ last.order →
      target.Has m.id) : CoversUpTo source target (reached (cursorAfterPage entries cursor)) := by
  rw [Ledger.reached_or]
  cases hlast : entries.getLast? with
  | none => exact hcursor
  | some last =>
    have hexists : ∃ last' ∈ page.entries, last.order ≤ last'.order :=
      ⟨last, hsub last (mem_of_mem_getLast? hlast), le_rfl⟩
    exact h.covers hcursor (hentries last hlast) (fun _ => hexists) (.inl hexists)

end SyncRun

namespace SyncSession

variable {s : SyncSession} {page : StoreScanResult}

/-- A new record is that of the run, and covered. -/
theorem Kept.persistScanCursor (h : s.Kept o) (hrun : run.BaseKept s) :
    ∀ record ∈ (s.persistScanCursor run).toList ++ s.records,
      record.sourceEpoch = s.sourceEpoch → record.targetEpoch = s.targetEpoch →
        CoversUpTo s.source s.target record.cursor.receiptOrder ∧
          Marks s.source (some record.cursor) := by
  intro record hrecord
  rcases mem_append.mp hrecord with hnew | hold
  · unfold SyncSession.persistScanCursor at hnew
    split at hnew
    · rename_i cursor sourceHead targetHead hcursor _ _
      obtain rfl : record = ⟨sourceHead.epoch, targetHead.epoch, cursor⟩ := by simpa using hnew
      have hcovers := hrun.covers
      have hmarks := hrun.marks
      rw [hcursor] at hcovers hmarks
      exact fun _ _ => ⟨hcovers, hmarks⟩
    · exact h.records record (mem_filterMap.mpr
        ⟨s.record, mem_cons_self, mem_toList.mp hnew⟩)
  · exact h.records record hold

theorem Kept.returns (h : s.Kept o) (hrun : run.BaseKept s) {cancelled : Bool}
    (hdone : cancelled = false →
      ∀ head ∈ run.sourceHead, CoversUpTo s.source s.target head.maxReceiptOrder) :
    (s.returns run cancelled).Kept o where
  records record hrecord := by
    refine h.persistScanCursor hrun record ?_
    obtain ⟨held, hheld, heq⟩ := mem_filterMap.mp hrecord
    rcases mem_cons.mp hheld with rfl | hold
    · exact mem_append_left _ (mem_toList.mpr heq)
    · exact mem_append_right _
        (mem_filterMap.mpr ⟨held, mem_cons_of_mem _ hold, heq⟩)
  run run' hmem := by
    obtain rfl := some.inj hmem
    refine ⟨⟨hrun.sourceHead, hrun.targetHead, hrun.covers, hrun.marks, hrun.transferred,
      hrun.present, hrun.atHead⟩, ?_⟩
    cases cancelled with
    | true => trivial
    | false => exact hdone rfl

theorem Kept.goes (h : s.Kept o) (hrun : run.BaseKept s)
    (hphase : run.PhaseKept o s.source s.target phase) : (s.goes run phase).Kept o where
  records := h.records
  run run' hmem := by
    obtain rfl := some.inj hmem
    exact ⟨⟨hrun.sourceHead, hrun.targetHead, hrun.covers, hrun.marks, hrun.transferred,
      hrun.present, hrun.atHead⟩, hphase.withPhase phase⟩

/-- **The end of a page**, with its entries in the target. -/
theorem Kept.endPage (h : s.Kept o) (hrun : run.BaseKept s) (hpage : run.PageKept o s.source page)
    (hstored : ∀ m ∈ run.pageEntries page, s.target.Has m.id) : (s.endPage run page).Kept o := by
  have hhas : ∀ m ∈ page.entries, (∀ bound ∈ run.scanUpperBound, m.order ≤ bound) →
      s.target.Has m.id := fun m hm hbound => hstored m (mem_pageEntries hm hbound)
  have hbase : ∀ {entries : List StoreEntryMetadata}, (∀ m ∈ entries, m ∈ page.entries) →
      (∀ last ∈ entries.getLast?, ∀ m ∈ page.entries, m.order ≤ last.order → s.target.Has m.id) →
      BaseKept s { run with cursor := cursorAfterPage entries run.cursor } := by
    intro entries hsub hentries
    exact ⟨hrun.sourceHead, hrun.targetHead,
      hpage.scanned.covers_cursorAfterPage hrun.covers hsub hentries,
      hpage.scanned.marks_cursorAfterPage hsub, hrun.transferred, hrun.present, hrun.atHead⟩
  unfold SyncSession.endPage
  split
  · rename_i hreached
    obtain ⟨bound, hbound, ⟨last, hlast, hbeyond⟩, hwithin⟩ := exists_beyond hreached
    have hbounds : ∀ bound' ∈ run.scanUpperBound, bound' = bound := fun bound' hbound' =>
      some.inj (hbound'.symm.trans hbound)
    refine h.returns (hbase (fun m hm => mem_of_mem_pageEntries hm) ?_) fun _ head hhead => ?_
    · intro last' hlast' m hm hle
      refine hhas m hm fun bound' hbound' => ?_
      rw [hbounds bound' hbound']
      exact hle.trans (hwithin last' (mem_of_mem_getLast? hlast'))
    · have hmax : head.maxReceiptOrder = bound :=
        hbounds _ (Option.mem_map_of_mem (·.maxReceiptOrder) hhead)
      rw [hmax]
      refine hpage.scanned.covers hrun.covers (fun m hm hle => hhas m hm fun bound' hbound' => ?_)
        (fun _ => ⟨last, hlast, hbeyond.le⟩) (.inl ⟨last, hlast, hbeyond.le⟩)
      rwa [hbounds bound' hbound']
  · rename_i hreached
    have hreached := Bool.eq_false_iff.mpr hreached
    have hall : ∀ m ∈ page.entries, s.target.Has m.id := fun m hm =>
      hhas m hm (order_le_bound hreached hm)
    have hkept := hbase (fun m hm => hm) fun _ _ m hm _ => hall m hm
    rw [← hpage.scanned.nextCursor_eq] at hkept
    split
    · exact h.goes hkept hpage.prefetched
    · rename_i hmore
      refine h.returns hkept fun _ head hhead => ?_
      exact hpage.scanned.covers hrun.covers (fun m hm _ => hall m hm)
        (fun hmore' => absurd hmore' hmore)
        (.inr (Option.mem_map_of_mem (·.maxReceiptOrder) hhead))

end SyncSession

end MindooDB
