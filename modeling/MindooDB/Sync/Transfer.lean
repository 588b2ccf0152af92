import MindooDB.Lib.Run
import MindooDB.Store.Growth

/-!
# Sync/Transfer — full sync between two stores

`core/BaseMindooDB.ts`: `syncEntriesFromStoreImpl` scans the source page by page, up to the head that
it had before, and `transferEntriesInBatches` copies what the target lacks; a witnessing target
answers with receipts, and these move the entries of the source behind that head.  Where the scan
stopped is kept in `syncScanCursors` for the next run between the two stores.

What is awaited takes a step of its own, so other writers and syncs come in between.
-/

namespace MindooDB

/-- `SyncOptions`, as far as a transfer looks at them. -/
structure SyncOptions where
  pageSize : Option ℕ := none
  transferBatchSize : Option ℕ := none
  maxConcurrentBatches : Option ℕ := none
  /-- `storeKind` is `StoreKind.attachments`. -/
  attachments : Bool := false

namespace SyncOptions

variable (o : SyncOptions)

def scanPageSize : ℕ := o.pageSize.getD 1000

def resolveTransferBatchSize : ℕ :=
  match o.transferBatchSize with
  | some (size + 1) => size + 1
  | _ => if o.attachments then 100 else min o.scanPageSize 250

def maxConcurrent (totalTransferBatches : ℕ) : ℕ :=
  min (max 1 (o.maxConcurrentBatches.getD 3)) totalTransferBatches

def totalTransferBatches (entryIds : List JSString) : ℕ :=
  max 1 ((entryIds.length + o.resolveTransferBatchSize - 1) / o.resolveTransferBatchSize)

/-- The batches of a transfer. -/
def batches (entryIds : List JSString) : List (List JSString) :=
  (List.range (o.totalTransferBatches entryIds)).map fun batchIndex =>
    (entryIds.drop (batchIndex * o.resolveTransferBatchSize)).take o.resolveTransferBatchSize

end SyncOptions

/-- A record of `syncScanCursors`. -/
structure SyncScanCursor where
  sourceEpoch : JSString
  targetEpoch : JSString
  cursor : StoreScanCursor
  deriving DecidableEq

/-- What a worker awaits for its batch: the entries, the target's answer, or the receipts. -/
inductive TransferWorker where
  | fetching (batchIds : List JSString)
  | putting (batchEntries : List StoreEntry)
  | witnessing (receipts : List StoreEntryMetadata)
  deriving DecidableEq

/-- A call of `transferEntriesInBatches`. -/
structure Transfer where
  missingIds : List JSString
  /-- The batches that no worker has taken. -/
  batches : List (List JSString)
  workers : List TransferWorker := []
  /-- `firstError` is set. -/
  failed : Bool := false
  deriving DecidableEq

/-- `nextPagePromise`. -/
inductive NextPage where
  | none
  | fetching (cursor : Option StoreScanCursor)
  | fetched (page : StoreScanResult)
  deriving DecidableEq

/-- Where a run is: it has a page, it knows what is missing of it, or it transfers that. -/
inductive SyncPhase where
  | top
  | fetched (page : StoreScanResult)
  | filtered (page : StoreScanResult) (missingIds : List JSString)
  | transferring (page : StoreScanResult) (transfer : Transfer)
  | returned (cancelled : Bool)
  | thrown
  deriving DecidableEq

/-- A call of `syncEntriesFromStoreImpl`. -/
structure SyncRun where
  sourceHead : Option StoreHead
  targetHead : Option StoreHead
  targetBloom : Option (JSString → Bool)
  cursor : Option StoreScanCursor
  nextPage : NextPage := .none
  transferredThisSync : List JSString := []
  /-- `signal.aborted`. -/
  aborted : Bool := false
  phase : SyncPhase := .top
  /-- What the source had when its head was read… -/
  atHead : List JSString
  /-- …and what another sync has re-stamped since. -/
  moved : List JSString := []

/-- Two stores, what a database remembers of syncs between them, and a run. -/
structure SyncSession where
  source : Ledger
  target : Ledger
  sourceEpoch : JSString
  targetEpoch : JSString
  record : Option SyncScanCursor := none
  /-- The records that checkpoints were flushed with. -/
  checkpoints : List (Option SyncScanCursor) := []
  run : Option SyncRun := none

/-- What a run does next. -/
inductive SyncRunEvent where
  | scan
  | prefetched
  | filter
  | proceed
  | take
  /-- What a worker awaits is there; the target answers with receipts. -/
  | advance (worker : ℕ) (receipts : List StoreEntryMetadata)
  /-- …or it fails, half done. -/
  | batchFails (worker : ℕ) (done : ℕ)
  | settle
  | fails
  deriving DecidableEq

inductive SyncEvent where
  | write (entry : StoreEntry)
  /-- Another sync has a receipt for an entry of the source. -/
  | restamp (receipt : StoreEntryMetadata)
  | targetPut (entry : StoreEntry)
  | targetRestamp (receipt : StoreEntryMetadata)
  | flush
  /-- `restoreFromCache`, with one of the checkpoints there were. -/
  | restore (checkpoint : ℕ)
  /-- A store begins a new lineage. -/
  | renewSource (source : Ledger) (epoch : JSString)
  | renewTarget (target : Ledger) (epoch : JSString)
  | start (forceFullScan sourceHeadRead targetHeadRead : Bool)
      (targetBloom : Option (JSString → Bool))
  | abort
  | runs (event : SyncRunEvent)

/-! ## Pages -/

namespace SyncRun

variable (run : SyncRun)

/-- The head, as the run has read it. -/
def scanUpperBound : Option ℤ := run.sourceHead.map (·.maxReceiptOrder)

def inBound (page : StoreScanResult) : List StoreEntryMetadata :=
  page.entries.filter fun m => run.scanUpperBound.all fun bound => decide (m.order ≤ bound)

def reachedScanBound (page : StoreScanResult) : Bool :=
  decide ((run.inBound page).length < page.entries.length)

/-- The page, clamped to the scan bound. -/
def pageEntries (page : StoreScanResult) : List StoreEntryMetadata :=
  if run.reachedScanBound page then run.inBound page else page.entries

/-- What the target may lack of a page. -/
def candidateIds (page : StoreScanResult) : List JSString :=
  ((run.pageEntries page).map (·.id)).filter fun id => !run.transferredThisSync.contains id

/-- The run has returned or thrown. -/
def ended : Bool :=
  match run.phase with
  | .returned _ | .thrown => true
  | _ => false

end SyncRun

/-- The candidates that the filter or the target itself does not know. -/
def filterMissingIds (target : Ledger) (candidateIds : List JSString)
    (bloom : Option (JSString → Bool)) : List JSString :=
  let definitelyMissing := candidateIds.filter fun id => bloom.any fun mightContain => !mightContain id
  let maybeExisting := candidateIds.filter fun id => bloom.all fun mightContain => mightContain id
  definitelyMissing ++ maybeExisting.filter fun id => (target.find? id).isNone

/-! ## Steps of a run -/

namespace SyncSession

variable (o : SyncOptions) (s : SyncSession) (run : SyncRun)

/-- `persistScanCursor(cursor)`. -/
def persistScanCursor : Option SyncScanCursor :=
  match run.cursor, run.sourceHead, run.targetHead with
  | some cursor, some sourceHead, some targetHead =>
    some ⟨sourceHead.epoch, targetHead.epoch, cursor⟩
  | _, _, _ => s.record

def returns (cancelled : Bool) : SyncSession :=
  { s with
    record := s.persistScanCursor run
    run := some { run with phase := .returned cancelled } }

/-- The run goes on to a phase. -/
def goes (phase : SyncPhase) : SyncSession := { s with run := some { run with phase := phase } }

/-- A page is there, and the next one is asked for. -/
def receive (page : StoreScanResult) : SyncSession :=
  s.goes { run with nextPage := if page.hasMore then .fetching page.nextCursor else .none }
    (.fetched page)

/-- The end of a page. -/
def endPage (page : StoreScanResult) : SyncSession :=
  if run.reachedScanBound page then
    s.returns { run with cursor := cursorAfterPage (run.pageEntries page) run.cursor } false
  else
    let run := { run with cursor := page.nextCursor }
    if page.hasMore then s.goes run .top else s.returns run false

/-- A transfer with other workers. -/
def works (page : StoreScanResult) (transfer : Transfer) (workers : List TransferWorker) :
    SyncSession := s.goes run (.transferring page { transfer with workers := workers })

def advance (page : StoreScanResult) (transfer : Transfer) (i : ℕ)
    (receipts : List StoreEntryMetadata) : SyncSession :=
  match transfer.workers[i]? with
  | none => s
  | some (.fetching batchIds) =>
    if run.aborted then s.works run page transfer (transfer.workers.eraseIdx i)
    else s.works run page transfer
      (transfer.workers.set i (.putting (batchIds.filterMap s.source.find?)))
  | some (.putting batchEntries) =>
    -- receipts are for what was put
    if ∀ receipt ∈ receipts, receipt.id ∈ batchEntries.map (·.id) then
      { s with target := batchEntries.foldl Ledger.put s.target }.works run page transfer
        (transfer.workers.set i (.witnessing receipts))
    else s
  | some (.witnessing receipts) =>
    { s with source := receipts.foldl Ledger.witness s.source }.works run page transfer
      (transfer.workers.eraseIdx i)

def batchFails (page : StoreScanResult) (transfer : Transfer) (i done : ℕ) : SyncSession :=
  let failed := { transfer with failed := transfer.failed || !run.aborted }
  let workers := transfer.workers.eraseIdx i
  match transfer.workers[i]? with
  | none => s
  | some (.fetching _) => s.works run page failed workers
  | some (.putting batchEntries) =>
    { s with target := (batchEntries.take done).foldl Ledger.put s.target }.works run page failed
      workers
  | some (.witnessing receipts) =>
    { s with source := (receipts.take done).foldl Ledger.witness s.source }.works run page failed
      workers

/-- No worker goes on to another batch. -/
def stops (transfer : Transfer) : Bool :=
  transfer.batches.isEmpty || transfer.failed || run.aborted

def take (page : StoreScanResult) (transfer : Transfer) : SyncSession :=
  if stops run transfer then s
  else match transfer.batches with
  | [] => s
  | batchIds :: batches =>
    if transfer.workers.length < o.maxConcurrent (o.totalTransferBatches transfer.missingIds) then
      s.works run page { transfer with batches := batches } (transfer.workers ++ [.fetching batchIds])
    else s

/-- All workers are done. -/
def settle (page : StoreScanResult) (transfer : Transfer) : SyncSession :=
  if transfer.workers.isEmpty && stops run transfer then
    if run.aborted then s.returns run true
    else if transfer.failed then s.goes run .thrown
    else s.endPage
      { run with transferredThisSync := run.transferredThisSync ++ transfer.missingIds } page
  else s

/-- One step of a run. -/
def runStep (event : SyncRunEvent) : SyncSession :=
  match event, run.phase with
  | .scan, .top =>
    if run.aborted then s.returns run true
    else match run.nextPage with
    | .none => s.receive run (s.source.scanEntriesSince run.cursor o.scanPageSize)
    | .fetching _ => s
    | .fetched page => s.receive run page
  | .filter, .fetched page =>
    if run.aborted then s.returns run true
    else if run.pageEntries page = [] then s.endPage run page
    else s.goes run (.filtered page
      (filterMissingIds s.target (run.candidateIds page) run.targetBloom))
  | .proceed, .filtered page missingIds =>
    if run.aborted then s.returns run true
    else if missingIds = [] then s.endPage run page
    else s.goes run (.transferring page ⟨missingIds, o.batches missingIds, [], false⟩)
  | .take, .transferring page transfer => s.take o run page transfer
  | .advance i receipts, .transferring page transfer => s.advance run page transfer i receipts
  | .batchFails i done, .transferring page transfer => s.batchFails run page transfer i done
  | .settle, .transferring page transfer => s.settle run page transfer
  | .fails, .top => s.goes run .thrown
  | .fails, .fetched _ => s.goes run .thrown
  | .prefetched, _ =>
    match run.ended, run.nextPage with
    | false, .fetching cursor =>
      { s with run := some { run with
          nextPage := .fetched (s.source.scanEntriesSince cursor o.scanPageSize) } }
    | _, _ => s
  | _, _ => s

/-! ## Steps of the session -/

/-- The records that the database has or may get back. -/
def records : List SyncScanCursor := (s.record :: s.checkpoints).filterMap id

/-- No run is under way. -/
def idle : Bool := s.run.all SyncRun.ended

/-- A run begins where its record says, unless that is of another lineage or nothing is new. -/
def resume (persisted : Option SyncScanCursor) : SyncSession :=
  match persisted, run.sourceHead, run.targetHead with
  | some persisted, some sourceHead, some targetHead =>
    if persisted.sourceEpoch = sourceHead.epoch ∧ persisted.targetEpoch = targetHead.epoch then
      if sourceHead.maxReceiptOrder ≤ persisted.cursor.receiptOrder then
        s.goes run (.returned false)
      else { s with run := some { run with cursor := some persisted.cursor } }
    else { s with record := none, run := some run }
  | _, _, _ => { s with run := some run }

/-- A run that has read the heads, or has not got them. -/
def begins (sourceHeadRead targetHeadRead : Bool) (targetBloom : Option (JSString → Bool)) :
    SyncRun where
  sourceHead := if sourceHeadRead then some ⟨s.sourceEpoch, s.source.maxReceiptOrder⟩ else none
  targetHead := if targetHeadRead then some ⟨s.targetEpoch, s.target.maxReceiptOrder⟩ else none
  targetBloom := targetBloom
  cursor := none
  atHead := s.source.live.map (·.id)

def step : SyncEvent → SyncSession
  | .write entry => { s with source := s.source.put entry }
  | .restamp receipt =>
    { s with
      source := s.source.witness receipt
      run := s.run.map fun run => { run with moved := receipt.id :: run.moved } }
  | .targetPut entry => { s with target := s.target.put entry }
  | .targetRestamp receipt => { s with target := s.target.witness receipt }
  | .flush => { s with checkpoints := s.record :: s.checkpoints }
  | .restore checkpoint =>
    match s.checkpoints[checkpoint]? with
    | none => s
    | some record => { s with record := record, run := none }
  | .renewSource source epoch =>
    if s.idle ∧ ∀ record ∈ s.records, record.sourceEpoch ≠ epoch then
      { s with source := source, sourceEpoch := epoch, run := none }
    else s
  | .renewTarget target epoch =>
    if s.idle ∧ ∀ record ∈ s.records, record.targetEpoch ≠ epoch then
      { s with target := target, targetEpoch := epoch, run := none }
    else s
  | .start forceFullScan sourceHeadRead targetHeadRead targetBloom =>
    if s.idle then
      s.resume (s.begins sourceHeadRead targetHeadRead targetBloom)
        (if forceFullScan then none else s.record)
    else s
  | .abort => { s with run := s.run.map fun run => { run with aborted := true } }
  | .runs event =>
    match s.run with
    | none => s
    | some run => s.runStep o run event

end SyncSession

end MindooDB
