import MindooDB.Summary.Store
import MindooDB.View.Runs

/-!
# Summary/Updates — the summary while its database changes

The summary, its updates, its flushes (`core/cache/CacheManager.ts`) and its database as one system:
`step` is what may happen between two awaits, in any order.  An update goes on where it waits, its
caller may stop it between two items, the cache may fail a flush, and the process may start again
with what is in the cache.
-/

namespace MindooDB

open DocumentSummaryStore

/-- The two passes of `runUpdate`. -/
inductive SummaryPass where
  | incremental
  | backfill
  deriving DecidableEq

/-- Where `update` waits. -/
inductive UpdatePhase where
  | idle
  | seeding
  | restoring
  | restoringBuckets (payload : SummaryMetaPayload)
  | ready
  | iterating (pass : SummaryPass) (remaining : List DocumentIndexEntry) (pending : Option Item)

/-- No pass is under way. -/
def UpdatePhase.Outside : UpdatePhase → Prop
  | .iterating .. => False
  | _ => True

def UpdatePhase.isIdle : UpdatePhase → Bool
  | .idle => true
  | _ => false

theorem UpdatePhase.isIdle_iff {update : UpdatePhase} : update.isIdle = true ↔ update = .idle := by
  cases update <;> simp [isIdle]

/-- Where `flush` waits. -/
inductive FlushPhase where
  | idle
  | writing (byBucket : ℕ → List DocumentSummaryEntry) (position : ℕ)
  | clearing

def FlushPhase.isIdle : FlushPhase → Bool
  | .idle => true
  | _ => false

theorem FlushPhase.isIdle_iff {flush : FlushPhase} : flush.isIdle = true ↔ flush = .idle := by
  cases flush <;> simp [isIdle]

/-- A database with its summary.  Two fields are of its history: `lastRead` tells what the summary was
last given of a document that has not changed since, `scheduledSince` whether a backfill has been
scheduled since a summary that had read the cache wrote the record of its cursors. -/
structure SummaryWorld where
  feed : ChangeFeed := {}
  store : DocumentSummaryStore
  update : UpdatePhase := .idle
  configLoading : Bool := false
  flush : FlushPhase := .idle
  records : SummaryRecords := {}
  lastRead : JSString → Option InternalDoc := fun _ => none
  scheduledSince : Bool := false

inductive SummaryEvent where
  | write (docId : JSString) (doc : InternalDoc) (purged : Bool)
  | hide (docId : JSString)
  | setConfig (config : Option SummaryConfig)
  | ensureConfigLoaded
  | configLoaded
  | startUpdate
  | advanceUpdate
  | stopUpdate
  | startFlush
  | advanceFlush
  | failFlush
  | restart (config : Option SummaryConfig)

namespace SummaryWorld

variable (env : ExpressionRuntime) (w : SummaryWorld)

/-- A new database with a new summary. -/
def new (config : Option SummaryConfig) : SummaryWorld where
  store := DocumentSummaryStore.new config

/-- A new summary of a database, with what is in its cache. -/
def opened (feed : ChangeFeed) (records : SummaryRecords) (scheduledSince : Bool)
    (config : Option SummaryConfig) : SummaryWorld where
  feed := feed
  store := DocumentSummaryStore.new config
  records := records
  scheduledSince := scheduledSince

/-! ## The database -/

def forget (docId : JSString) : JSString → Option InternalDoc :=
  Function.update w.lastRead docId none

def write (docId : JSString) (doc : InternalDoc) (purged : Bool) : SummaryWorld :=
  { w with
    feed := w.feed.write env.toRuntime docId doc
    store := if purged then w.store.removeDocument docId else w.store
    lastRead := w.forget docId }

def hide (docId : JSString) : SummaryWorld :=
  { w with
    feed := w.feed.hide env.toRuntime docId
    store := w.store.removeDocument docId
    lastRead := w.forget docId }

/-! ## Updates -/

/-- Where an update is once the configuration is settled. -/
def afterSeeding : UpdatePhase :=
  if w.store.restored then .ready else .restoring

/-- The store after a change of its configuration. -/
def configure (store : DocumentSummaryStore) : SummaryWorld :=
  { w with store := store, scheduledSince := w.scheduledSince || w.store.scheduled store }

/-- `seedConfigFromSetupDoc` reads the setup document once. -/
def mustSeed : Bool :=
  !w.store.setupDocSeeded && !w.store.hasExplicitConfig

def ensureConfigLoaded : SummaryWorld :=
  { w with
    store := { w.store with setupDocSeeded := true }
    configLoading := w.configLoading || w.mustSeed }

def configLoaded : SummaryWorld :=
  if w.configLoading then
    { w.configure (w.store.seedConfig w.feed) with configLoading := false }
  else w

def startUpdate : SummaryWorld :=
  match w.update with
  | .idle =>
    { w with
      store := { w.store with setupDocSeeded := true }
      update := if w.mustSeed then .seeding else w.afterSeeding }
  | _ => w

/-- The cursor of a pass. -/
def passCursor : SummaryPass → DocumentSummaryStore → Option ProcessChangesCursor
  | .incremental, store => store.cursor
  | .backfill, store => store.backfillCursor

/-- Begin a pass after its cursor. -/
def beginPass (pass : SummaryPass) : SummaryWorld :=
  { w with
    update := .iterating pass (w.feed.rowsSince env.toRuntime (passCursor pass w.store)) none }

/-- A row is read. -/
def fetch (pass : SummaryPass) (row : DocumentIndexEntry) (remaining : List DocumentIndexEntry) :
    SummaryWorld :=
  match w.feed.read row with
  | none => { w with update := .iterating pass remaining none }
  | some doc =>
    { w with
      update := .iterating pass remaining (some ⟨row.docId, doc, row.cursor⟩)
      lastRead := Function.update w.lastRead row.docId
        (if row.accessState = .visible ∧ row.isDeleted = false then some doc else none) }

/-- Move the cursor of a pass. -/
def moveCursor (pass : SummaryPass) (cursor : ProcessChangesCursor)
    (store : DocumentSummaryStore) : DocumentSummaryStore :=
  match pass with
  | .incremental => { store with cursor := some cursor }
  | .backfill => { store with backfillCursor := some cursor }

/-- What was read is applied. -/
def take (pass : SummaryPass) (item : Item) (remaining : List DocumentIndexEntry) :
    SummaryWorld :=
  { w with
    store := moveCursor pass item.cursor (w.store.applyDocument env item)
    update := .iterating pass remaining none
    scheduledSince := w.scheduledSince || w.store.scheduled (w.store.applyDocument env item) }

/-- The rows of a pass are through. -/
def endPass (pass : SummaryPass) : SummaryWorld :=
  match pass with
  | .incremental =>
    if w.store.needsBackfill then w.beginPass env .backfill else { w with update := .idle }
  | .backfill =>
    { w with
      store := { w.store with needsBackfill := false, backfillCursor := none, metaDirty := true }
      update := .idle }

/-- The cache has been read. -/
def restore (payload : SummaryMetaPayload) : SummaryWorld :=
  { w with
    store := w.store.restore payload w.records
    update := .ready
    scheduledSince := w.scheduledSince
      || decide (payload.configFingerprint ≠ w.store.configFingerprint) }

/-- An update takes one more document. -/
def advanceUpdate : SummaryWorld :=
  match w.update with
  | .idle => w
  | .seeding => { w.configure (w.store.seedConfig w.feed) with update := w.afterSeeding }
  | .restoring =>
    match w.records.metaRecord with
    | some payload => { w with update := .restoringBuckets payload }
    | none => { w with store := { w.store with restored := true }, update := .ready }
  | .restoringBuckets payload => w.restore payload
  | .ready => w.beginPass env .incremental
  | .iterating pass (row :: remaining) none => w.fetch pass row remaining
  | .iterating pass remaining (some item) => w.take env pass item remaining
  | .iterating pass [] none => w.endPass env pass

/-- An update is aborted. -/
def stopUpdate : SummaryWorld :=
  match w.update with
  | .ready => { w with update := .idle }
  | .iterating _ _ none => { w with update := .idle }
  | _ => w

/-! ## Flushes -/

/-- A flush writes one bucket. -/
def putBucket (bucket : ℕ) (entries : List DocumentSummaryEntry) : SummaryRecords :=
  { w.records with bucket := Function.update w.records.bucket bucket entries }

/-- The dirty buckets are written in the order of their marks, then the record of the cursors. -/
def advanceFlush : SummaryWorld :=
  match w.flush with
  | .idle => w
  | .writing byBucket position =>
    match w.store.dirtyBuckets.toList[position]? with
    | some bucket =>
      { w with
        records := w.putBucket bucket (byBucket bucket)
        flush := .writing byBucket (position + 1) }
    | none =>
      { w with
        records := { w.records with metaRecord := some w.store.metaPayload }
        flush := .clearing
        scheduledSince := w.scheduledSince && !w.store.restored }
  | .clearing => { w with store := w.store.clearDirty, flush := .idle }

def startFlush : SummaryWorld :=
  match w.flush with
  | .idle =>
    if w.store.hasDirtyState then
      advanceFlush { w with flush := .writing w.store.byBucket 0 }
    else w
  | _ => w

/-- A new store takes over, with the database as it is (`Summary.Reopening` opens that anew too). -/
def restart (config : Option SummaryConfig) : SummaryWorld where
  feed := w.feed
  store := DocumentSummaryStore.new config
  records := w.records
  scheduledSince := w.scheduledSince

/-! ## Runs -/

def step : SummaryEvent → SummaryWorld
  | .write docId doc purged => w.write env docId doc purged
  | .hide docId => w.hide env docId
  | .setConfig config => w.configure (w.store.setConfig config)
  | .ensureConfigLoaded => w.ensureConfigLoaded
  | .configLoaded => w.configLoaded
  | .startUpdate => w.startUpdate
  | .advanceUpdate => w.advanceUpdate env
  | .stopUpdate => w.stopUpdate
  | .startFlush => w.startFlush
  | .advanceFlush => w.advanceFlush
  | .failFlush => { w with flush := .idle }
  | .restart config => w.restart config

def run (events : List SummaryEvent) : SummaryWorld :=
  events.foldl (step env) w

/-- Every step of a run meets a condition, which may look at the state before it. -/
def AllSteps (condition : SummaryWorld → SummaryEvent → Prop) :
    SummaryWorld → List SummaryEvent → Prop
  | _, [] => True
  | w, event :: events => condition w event ∧ AllSteps condition (w.step env event) events

instance instDecidableAllSteps (condition : SummaryWorld → SummaryEvent → Prop)
    [∀ w event, Decidable (condition w event)] (events : List SummaryEvent) :
    ∀ w : SummaryWorld, Decidable (AllSteps env condition w events) :=
  match events with
  | [] => fun _ => inferInstanceAs (Decidable True)
  | event :: events => fun w =>
    have := instDecidableAllSteps condition events (w.step env event)
    inferInstanceAs (Decidable (condition w event ∧ AllSteps env condition (w.step env event) events))

variable {env w}

variable {condition : SummaryWorld → SummaryEvent → Prop}

/-- **What every step keeps holds after a run.** -/
theorem run_induction {motive : SummaryWorld → Prop} (hstart : motive w)
    (hstep : ∀ w event, motive w → condition w event → motive (w.step env event))
    {events : List SummaryEvent} (hall : AllSteps env condition w events) :
    motive (w.run env events) := by
  induction events generalizing w with
  | nil => exact hstart
  | cons event events ih => exact ih (hstep w event hstart hall.1) hall.2

/-! ## What one step does -/

variable (w) in
/-- A phase that an update waits in before it reads, by what has been restored. -/
def Fits : UpdatePhase → Prop
  | .restoring => w.store.restored = false
  | .ready => w.store.restored = true
  | .idle => True
  | .seeding => True
  | _ => False

variable (env w) in
/-- **What one step can do.** -/
inductive Move : SummaryWorld → Prop
  /-- A document changes or can no longer be read. -/
  | bumps {feed : ChangeFeed} {row : DocumentIndexEntry} {store : DocumentSummaryStore}
      (hbumps : ChangeFeed.Bumps w.feed feed row) (hstore : w.store.Purged store row.docId) :
      Move { w with feed := feed, store := store, lastRead := w.forget row.docId }
  /-- What is left of a document that cannot be read is removed. -/
  | scrubs (docId : JSString)
      (hgone : ∀ row ∈ w.feed.index, row.docId = docId → row.accessState = .inaccessible) :
      Move { w with store := w.store.removeDocument docId, lastRead := w.forget docId }
  | configures {store : DocumentSummaryStore} {update : UpdatePhase}
      {configLoading scheduledSince : Bool} (hstore : w.store.Reconfigured store)
      (hupdate : update = w.update ∨ w.update.Outside ∧ w.Fits update)
      (hsince : scheduledSince = (w.scheduledSince || w.store.scheduled store)) :
      Move
        { w with
          store := store
          update := update
          configLoading := configLoading
          scheduledSince := scheduledSince }
  | readsMeta {payload : SummaryMetaPayload} (hupdate : w.update = .restoring)
      (hmeta : w.records.metaRecord = some payload) :
      Move { w with update := .restoringBuckets payload }
  | restoresNothing (hupdate : w.update = .restoring) (hmeta : w.records.metaRecord = none) :
      Move { w with store := { w.store with restored := true }, update := .ready }
  | restores {payload : SummaryMetaPayload} (hupdate : w.update = .restoringBuckets payload) :
      Move (w.restore payload)
  | begins {pass : SummaryPass}
      (hpass : pass = .incremental ∧ w.update = .ready ∨
        pass = .backfill ∧ w.update = .iterating .incremental [] none
          ∧ w.store.needsBackfill = true) : Move (w.beginPass env pass)
  | fetches {pass : SummaryPass} {row : DocumentIndexEntry} {remaining : List DocumentIndexEntry}
      (hupdate : w.update = .iterating pass (row :: remaining) none) :
      Move (w.fetch pass row remaining)
  | takes {pass : SummaryPass} {item : Item} {remaining : List DocumentIndexEntry}
      (hupdate : w.update = .iterating pass remaining (some item)) :
      Move (w.take env pass item remaining)
  | stops {pass : SummaryPass} {remaining : List DocumentIndexEntry}
      (hupdate : w.update = .iterating pass remaining none) : Move { w with update := .idle }
  | completes (hupdate : w.update = .iterating .backfill [] none) :
      Move (w.endPass env .backfill)
  | groups (hflush : w.flush = .idle) : Move { w with flush := .writing w.store.byBucket 0 }
  | writes {byBucket : ℕ → List DocumentSummaryEntry} {position bucket : ℕ}
      (hflush : w.flush = .writing byBucket position)
      (hbucket : w.store.dirtyBuckets.toList[position]? = some bucket) :
      Move
        { w with
          records := w.putBucket bucket (byBucket bucket)
          flush := .writing byBucket (position + 1) }
  | writesMeta {byBucket : ℕ → List DocumentSummaryEntry} {position : ℕ}
      (hflush : w.flush = .writing byBucket position)
      (hbucket : w.store.dirtyBuckets.toList[position]? = none) :
      Move
        { w with
          records := { w.records with metaRecord := some w.store.metaPayload }
          flush := .clearing
          scheduledSince := w.scheduledSince && !w.store.restored }
  | clears (hflush : w.flush = .clearing) :
      Move { w with store := w.store.clearDirty, flush := .idle }
  | fails : Move { w with flush := .idle }
  | restarts (config : Option SummaryConfig) : Move (w.restart config)

theorem fits_afterSeeding : w.Fits w.afterSeeding := by
  rw [afterSeeding]
  split
  · assumption
  · exact Bool.eq_false_iff.mpr ‹_›

theorem move_advanceUpdate : w.advanceUpdate env = w ∨ Move env w (w.advanceUpdate env) := by
  rw [advanceUpdate]
  cases hupdate : w.update with
  | idle => exact .inl rfl
  | seeding =>
    have houtside : w.update.Outside := hupdate ▸ trivial
    exact .inr (.configures (reconfigured_seedConfig w.store w.feed)
      (.inr ⟨houtside, fits_afterSeeding⟩) rfl)
  | restoring =>
    cases hmeta : w.records.metaRecord with
    | none => exact .inr (.restoresNothing hupdate hmeta)
    | some payload => exact .inr (.readsMeta hupdate hmeta)
  | restoringBuckets payload => exact .inr (.restores hupdate)
  | ready => exact .inr (.begins (.inl ⟨rfl, hupdate⟩))
  | iterating pass remaining pending =>
    cases pending with
    | some item => exact .inr (by cases remaining <;> exact .takes hupdate)
    | none =>
      cases remaining with
      | cons row remaining => exact .inr (.fetches hupdate)
      | nil =>
        cases pass with
        | backfill => exact .inr (.completes hupdate)
        | incremental =>
          cases hneeds : w.store.needsBackfill with
          | true =>
            simp only [endPass, hneeds, if_true]
            exact .inr (.begins (.inr ⟨rfl, hupdate, hneeds⟩))
          | false =>
            simp only [endPass, hneeds]
            exact .inr (.stops hupdate)

theorem move_startUpdate : w.startUpdate = w ∨ Move env w w.startUpdate := by
  rw [startUpdate]
  cases hupdate : w.update with
  | idle =>
    have houtside : w.update.Outside := hupdate ▸ trivial
    refine .inr (.configures reconfigured_seeded (.inr ⟨houtside, ?_⟩)
      (or_scheduled rfl).symm)
    split
    · trivial
    · exact fits_afterSeeding
  | _ => exact .inl rfl

theorem move_stopUpdate : w.stopUpdate = w ∨ Move env w w.stopUpdate := by
  rw [stopUpdate]
  cases hupdate : w.update with
  | ready =>
    have houtside : w.update.Outside := hupdate ▸ trivial
    exact .inr (.configures Reconfigured.refl (.inr ⟨houtside, trivial⟩)
      (or_scheduled rfl).symm)
  | iterating pass remaining pending =>
    cases pending with
    | none => exact .inr (.stops hupdate)
    | some item => exact .inl rfl
  | _ => exact .inl rfl

theorem move_advanceFlush : w.advanceFlush = w ∨ Move env w w.advanceFlush := by
  rw [advanceFlush]
  cases hflush : w.flush with
  | idle => exact .inl rfl
  | writing byBucket position =>
    cases hbucket : w.store.dirtyBuckets.toList[position]? with
    | some bucket =>
      simp only [hbucket]
      exact .inr (.writes hflush hbucket)
    | none =>
      simp only [hbucket]
      exact .inr (.writesMeta hflush hbucket)
  | clearing => exact .inr (.clears hflush)

theorem store_advanceFlush {byBucket : ℕ → List DocumentSummaryEntry} {position : ℕ}
    (hflush : w.flush = .writing byBucket position) : w.advanceFlush.store = w.store := by
  rw [advanceFlush, hflush]
  cases hbucket : w.store.dirtyBuckets.toList[position]? <;> simp only [hbucket]

theorem move_startFlush : w.startFlush = w ∨ Move env w w.startFlush ∨
    ∃ w', Move env w w' ∧ w'.update = w.update ∧ w'.store = w.store ∧ w.startFlush.store = w.store
      ∧ Move env w' w.startFlush := by
  rw [startFlush]
  cases hflush : w.flush with
  | idle =>
    cases hdirty : w.store.hasDirtyState with
    | true =>
      have hgroups : Move env w { w with flush := .writing w.store.byBucket 0 } := .groups hflush
      have hstore : (advanceFlush { w with flush := .writing w.store.byBucket 0 }).store = w.store :=
        store_advanceFlush rfl
      have hflushed : advanceFlush { w with flush := .writing w.store.byBucket 0 } = _ ∨
        Move env _ _ := move_advanceFlush
      rcases hflushed with hsame | hmove
      · exact .inr (.inl (hsame.symm ▸ hgroups))
      · exact .inr (.inr ⟨_, hgroups, rfl, rfl, hstore, hmove⟩)
    | false => exact .inl rfl
  | _ => exact .inl rfl

variable (env) in
/-- **Every step is no move, one move, or a flush that begins.** -/
theorem step_moves (h : w.feed.InOrder) (event : SummaryEvent) :
    w.step env event = w ∨ Move env w (w.step env event) ∨ event = .startFlush ∧
      ∃ w', Move env w w' ∧ w'.update = w.update ∧ w'.store = w.store
        ∧ (w.step env event).store = w.store ∧ Move env w' (w.step env event) := by
  cases event with
  | write docId doc purged =>
    obtain ⟨row, rfl, hbumps⟩ := h.write env.toRuntime docId doc
    refine .inr (.inl (.bumps hbumps ?_))
    split
    · exact .inr rfl
    · exact .inl rfl
  | hide docId =>
    rcases h.hide env.toRuntime docId with ⟨hsame, hgone⟩ | ⟨row, rfl, hbumps⟩
    · refine .inr (.inl ?_)
      change Move env w (w.hide env docId)
      rw [hide, hsame]
      exact .scrubs docId hgone
    · exact .inr (.inl (.bumps hbumps (.inr rfl)))
  | setConfig config =>
    exact .inr (.inl (.configures (reconfigured_setConfig w.store config)
      (.inl rfl) rfl))
  | ensureConfigLoaded =>
    exact .inr (.inl (.configures reconfigured_seeded (.inl rfl)
      (or_scheduled rfl).symm))
  | configLoaded =>
    change w.configLoaded = w ∨ Move env w w.configLoaded ∨ _
    rw [configLoaded]
    split
    · exact .inr (.inl (.configures (reconfigured_seedConfig w.store w.feed)
        (.inl rfl) rfl))
    · exact .inl rfl
  | startUpdate => exact (move_startUpdate).imp_right .inl
  | advanceUpdate => exact (move_advanceUpdate).imp_right .inl
  | stopUpdate => exact (move_stopUpdate).imp_right .inl
  | startFlush => exact move_startFlush.imp_right fun h => h.imp_right fun h => ⟨rfl, h⟩
  | advanceFlush => exact (move_advanceFlush).imp_right .inl
  | failFlush => exact .inr (.inl .fails)
  | restart config => exact .inr (.inl (.restarts config))

end SummaryWorld

/-! ## A small database -/

/-- A runtime that compares and reads nothing. -/
def plainExpressions : ExpressionRuntime where
  toRuntime := plainRuntime
  toNumber _ := none
  toUpperCase s := s
  trim s := s
  parseDate _ := none
  getUTCFullYear _ := 1970
  getUTCMonth _ := 1
  getUTCDate _ := 1
  parseJson _ := none
  jsonLength _ := 4

/-- A document with a text. -/
def noteOf (text : JSString) : InternalDoc where
  data := (∅ : ColumnValues).set "text" (.string text)
  createdAt := 1
  lastModified := 1
  decryptionKeyId := "default"
  isDeleted := false

/-- An update that nothing disturbs. -/
def undisturbed : List SummaryEvent :=
  .startUpdate :: List.replicate 12 .advanceUpdate

/-- Two documents are read, then nothing but their ids is to be kept. -/
def backfillAhead : List SummaryEvent :=
  [.write "a" (noteOf "first") false, .write "b" (noteOf "second") false] ++ undisturbed
    ++ [.setConfig (some { autoInclude := some false })]

end MindooDB
