import MindooDB.Summary.Config
import MindooDB.Summary.Feed

/-!
# Summary/Store — the summary of a database

`core/indexing/summary/DocumentSummaryStore.ts`: the entries of the documents, the cursors of the two
passes of an update, and the marks of what has to be flushed.  The operations here run between two
awaits; `Summary.Updates` puts them in order.
-/

namespace MindooDB

/-- What a view needs of a document. -/
structure DocumentSummaryEntry where
  docId : JSString
  fields : ColumnValues
  lastModified : ℚ
  changeSeq : ℕ
  decryptionKeyId : JSString

def DEFAULT_BUCKET_COUNT : ℕ := 64

def hashDocId (docId : JSString) : UInt32 :=
  docId.units.foldl (fun hash unit => (hash <<< 5) + hash + UInt32.ofNat unit.val) 5381

def bucketIndexFor (docId : JSString) : ℕ :=
  (hashDocId docId).toNat % DEFAULT_BUCKET_COUNT

/-- The record of the cursors and of the configuration they are for. -/
structure SummaryMetaPayload where
  cursor : Option ProcessChangesCursor
  configFingerprint : ResolvedSummaryConfig
  needsBackfill : Bool
  backfillCursor : Option ProcessChangesCursor

/-- What the summary has in the cache. -/
structure SummaryRecords where
  bucket : ℕ → List DocumentSummaryEntry := fun _ => []
  metaRecord : Option SummaryMetaPayload := none

structure DocumentSummaryStore where
  config : ResolvedSummaryConfig
  hasExplicitConfig : Bool
  setupDocSeeded : Bool := false
  entries : LinkedMap JSString DocumentSummaryEntry := ∅
  cursor : Option ProcessChangesCursor := none
  dirtyBuckets : LinkedSet ℕ := ∅
  metaDirty : Bool := false
  restored : Bool := false
  needsBackfill : Bool := false
  backfillCursor : Option ProcessChangesCursor := none

namespace DocumentSummaryStore

/-- A store as it is constructed. -/
def new (config : Option SummaryConfig) : DocumentSummaryStore where
  config := resolveSummaryConfig (config.getD {})
  hasExplicitConfig := config.isSome

variable (store : DocumentSummaryStore)

def configFingerprint : ResolvedSummaryConfig :=
  computeSummaryConfigFingerprint store.config

/-! ## Configuration -/

/-- Everything is extracted again. -/
def scheduleBackfill : DocumentSummaryStore :=
  { store with needsBackfill := true, backfillCursor := none }

/-- Whether a configuration has another fingerprint. -/
def changes (config : Option SummaryConfig) : Bool :=
  computeSummaryConfigFingerprint (resolveSummaryConfig (config.getD {})) ≠ store.configFingerprint

/-- Whether there is anything that another configuration makes out of date. -/
def hasProgress : Bool :=
  store.entries.size ≠ 0 || store.cursor.isSome

def applyConfig (config : Option SummaryConfig) : DocumentSummaryStore :=
  if store.changes config then
    let replaced := { store with config := resolveSummaryConfig (config.getD {}) }
    { (if store.hasProgress then replaced.scheduleBackfill else replaced) with metaDirty := true }
  else store

def setConfig (config : Option SummaryConfig) : DocumentSummaryStore :=
  applyConfig { store with hasExplicitConfig := true } config

/-- A change of the configuration has scheduled a backfill. -/
def scheduled (store' : DocumentSummaryStore) : Bool :=
  decide (store'.config ≠ store.config) && store'.needsBackfill && store'.backfillCursor.isNone

/-- What the setup document says. -/
def setupConfig (doc : InternalDoc) : Option SummaryConfig :=
  sanitizeSummaryConfig (doc.data.get? SUMMARY_SETUP_FIELD)

/-- Adopt what the setup document says, if it can be read and says anything. -/
def seedConfig (feed : ChangeFeed) : DocumentSummaryStore :=
  match (feed.getDocument DB_SETUP_DOC_ID).bind setupConfig with
  | some config => store.applyConfig (some config)
  | none => store

/-- What `getCoverage` answers. -/
inductive SummaryCoverage where
  | full
  | rebuilding
  deriving DecidableEq

def getCoverage : SummaryCoverage :=
  if store.needsBackfill then .rebuilding else .full

/-! ## Entries -/

def markBucketDirty (docId : JSString) : DocumentSummaryStore :=
  { store with dirtyBuckets := store.dirtyBuckets.add (bucketIndexFor docId), metaDirty := true }

/-- The entry goes at once. -/
def removeDocument (docId : JSString) : DocumentSummaryStore :=
  if store.entries.has docId then
    { store with entries := store.entries.delete docId }.markBucketDirty docId
  else store

/-- One item of a change iteration. -/
structure Item where
  docId : JSString
  doc : InternalDoc
  cursor : ProcessChangesCursor

/-- The configuration that the setup document in an item stands for. -/
def Item.config (item : Item) : Option SummaryConfig :=
  if item.doc.isDeleted then none else setupConfig item.doc

variable (env : ExpressionRuntime)

/-- The entry of a document under a configuration. -/
def Item.entry (item : Item) (config : ResolvedSummaryConfig) : DocumentSummaryEntry where
  docId := item.docId
  fields := extractSummaryFields env item.doc.data config
  lastModified := item.doc.lastModified
  changeSeq := item.cursor.changeSeq
  decryptionKeyId := item.doc.decryptionKeyId

/-- The entry of a document is written, or goes. -/
def applyDocument (item : Item) : DocumentSummaryStore :=
  if item.docId = DB_SETUP_DOC_ID then
    (if store.hasExplicitConfig then store else store.applyConfig item.config).removeDocument
      item.docId
  else if item.doc.isDeleted then store.removeDocument item.docId
  else
    { store with entries := store.entries.set item.docId (item.entry env store.config) }.markBucketDirty
      item.docId

/-! ## Persistence -/

def hasDirtyState : Bool :=
  store.dirtyBuckets.size ≠ 0 || store.metaDirty

def clearDirty : DocumentSummaryStore :=
  { store with dirtyBuckets := ∅, metaDirty := false }

/-- The entries of a bucket. -/
def bucketEntries (bucket : ℕ) : List DocumentSummaryEntry :=
  store.entries.values.filter fun entry => decide (bucketIndexFor entry.docId = bucket)

/-- The entries of the dirty buckets, grouped. -/
def byBucket (bucket : ℕ) : List DocumentSummaryEntry :=
  if bucket ∈ store.dirtyBuckets then store.bucketEntries bucket else []

/-- The record of the cursors. -/
def metaPayload : SummaryMetaPayload where
  cursor := store.cursor
  configFingerprint := store.configFingerprint
  needsBackfill := store.needsBackfill
  backfillCursor := store.backfillCursor

/-- All entries of the buckets in the cache. -/
def persistedEntries (records : SummaryRecords) : List DocumentSummaryEntry :=
  (List.range DEFAULT_BUCKET_COUNT).flatMap records.bucket

/-- Put an entry back. -/
def putEntry (entries : LinkedMap JSString DocumentSummaryEntry) (entry : DocumentSummaryEntry) :
    LinkedMap JSString DocumentSummaryEntry :=
  entries.set entry.docId entry

/-- Put the persisted state back, with the configuration that is settled by now. -/
def restore (payload : SummaryMetaPayload) (records : SummaryRecords) : DocumentSummaryStore :=
  let restored := { store with
    entries := (persistedEntries records).foldl putEntry store.entries
    cursor := payload.cursor
    restored := true }
  if payload.configFingerprint ≠ store.configFingerprint then
    { restored.scheduleBackfill with metaDirty := true }
  else if payload.needsBackfill then
    { restored with needsBackfill := true, backfillCursor := payload.backfillCursor }
  else restored

/-! ## What an operation changes -/

/-- **What a change of the configuration changes**: the backfill begins anew, unless the
configuration stays or there is nothing that it makes out of date. -/
structure Reconfigured (store store' : DocumentSummaryStore) : Prop where
  entries : store'.entries = store.entries
  cursor : store'.cursor = store.cursor
  dirtyBuckets : store'.dirtyBuckets = store.dirtyBuckets
  restored : store'.restored = store.restored
  outcome : store'.config ≠ store.config ∧ store'.needsBackfill = true
      ∧ store'.backfillCursor = none ∧ store.hasProgress = true ∨
    (store'.needsBackfill = store.needsBackfill ∧ store'.backfillCursor = store.backfillCursor
      ∧ (store'.config = store.config ∨ store.entries = ∅ ∧ store.cursor = none))

/-- **What an operation on one entry changes.** -/
structure Touched (store store' : DocumentSummaryStore) (docId : JSString) : Prop where
  config : store'.config = store.config
  hasExplicitConfig : store'.hasExplicitConfig = store.hasExplicitConfig
  cursor : store'.cursor = store.cursor
  restored : store'.restored = store.restored
  needsBackfill : store'.needsBackfill = store.needsBackfill
  backfillCursor : store'.backfillCursor = store.backfillCursor
  others : ∀ other, other ≠ docId → store'.entries.get? other = store.entries.get? other
  dirty : ∀ bucket ∈ store.dirtyBuckets, bucket ∈ store'.dirtyBuckets
  marked : store'.entries.get? docId = store.entries.get? docId ∨
    bucketIndexFor docId ∈ store'.dirtyBuckets

/-- A document is left alone, or its entry is removed. -/
def Purged (store store' : DocumentSummaryStore) (docId : JSString) : Prop :=
  store' = store ∨ store' = store.removeDocument docId

variable {store : DocumentSummaryStore} {env : ExpressionRuntime}

theorem Reconfigured.refl : Reconfigured store store :=
  ⟨rfl, rfl, rfl, rfl, .inr ⟨rfl, rfl, .inl rfl⟩⟩

variable {store' : DocumentSummaryStore}

theorem or_scheduled {since : Bool}
    (h : store'.config = store.config) : (since || store.scheduled store') = since := by
  simp [scheduled, h]

theorem reconfigured_seeded : Reconfigured store { store with setupDocSeeded := true } :=
  ⟨rfl, rfl, rfl, rfl, .inr ⟨rfl, rfl, .inl rfl⟩⟩

theorem Touched.refl (docId : JSString) : Touched store store docId :=
  ⟨rfl, rfl, rfl, rfl, rfl, rfl, fun _ _ => rfl, fun _ h => h, .inl rfl⟩

theorem hasProgress_eq_false (hentries : store.entries = ∅) (hcursor : store.cursor = none) :
    store.hasProgress = false := by
  rw [hasProgress, hentries, hcursor]
  rfl

theorem entries_eq_empty_of_not_hasProgress (h : store.hasProgress = false) :
    store.entries = ∅ ∧ store.cursor = none := by
  rw [hasProgress, Bool.or_eq_false_iff, decide_eq_false_iff_not, not_not] at h
  exact ⟨LinkedMap.ext (List.length_eq_zero_iff.mp h.1), by simpa using h.2⟩

variable (store) in
theorem reconfigured_applyConfig (config : Option SummaryConfig) :
    Reconfigured store (store.applyConfig config) := by
  rw [applyConfig]
  split
  · rename_i hchanges
    cases hprogress : store.hasProgress with
    | true =>
      have hne : resolveSummaryConfig (config.getD {}) ≠ store.config := fun heq =>
        of_decide_eq_true hchanges (congrArg computeSummaryConfigFingerprint heq)
      exact ⟨rfl, rfl, rfl, rfl, .inl ⟨hne, rfl, rfl, hprogress⟩⟩
    | false =>
      exact ⟨rfl, rfl, rfl, rfl,
        .inr ⟨rfl, rfl, .inr (entries_eq_empty_of_not_hasProgress hprogress)⟩⟩
  · exact Reconfigured.refl

/-- A configuration of the same fingerprint changes nothing. -/
theorem applyConfig_of_not_changes {config : Option SummaryConfig}
    (h : store.changes config = false) : store.applyConfig config = store := by
  rw [applyConfig, h]
  rfl

theorem config_setConfig {config : Option SummaryConfig} (h : store.changes config = false) :
    (store.setConfig config).config = store.config := by
  have hsame : changes { store with hasExplicitConfig := true } config = false := h
  rw [setConfig, applyConfig_of_not_changes hsame]

variable (store) in
theorem reconfigured_setConfig (config : Option SummaryConfig) :
    Reconfigured store (store.setConfig config) := by
  obtain ⟨hentries, hcursor, hdirty, hrestored, houtcome⟩ :=
    reconfigured_applyConfig { store with hasExplicitConfig := true } config
  exact ⟨hentries, hcursor, hdirty, hrestored, houtcome⟩

variable (store) in
theorem reconfigured_seedConfig (feed : ChangeFeed) :
    Reconfigured store (store.seedConfig feed) := by
  rw [seedConfig]
  split
  · exact reconfigured_applyConfig _ _
  · exact Reconfigured.refl

variable (store) in
theorem touched_removeDocument (docId : JSString) :
    Touched store (store.removeDocument docId) docId
      ∧ (store.removeDocument docId).entries.get? docId = none := by
  rw [removeDocument]
  split
  · refine ⟨⟨rfl, rfl, rfl, rfl, rfl, rfl, fun other hother => ?_, fun bucket hbucket => ?_, ?_⟩, ?_⟩
    · exact LinkedMap.get?_delete_of_ne _ hother
    · exact LinkedSet.mem_add.mpr (.inr hbucket)
    · exact .inr (LinkedSet.mem_add.mpr (.inl rfl))
    · exact LinkedMap.get?_delete_self _ _
  · rename_i habsent
    exact ⟨Touched.refl docId, LinkedMap.has_eq_false_iff.mp (Bool.eq_false_iff.mpr habsent)⟩

theorem Purged.touched {docId : JSString}
    (h : Purged store store' docId) : Touched store store' docId := by
  rcases h with rfl | rfl
  · exact Touched.refl docId
  · exact (touched_removeDocument store docId).1

/-- A store without entries has nothing to remove. -/
theorem Purged.eq_of_empty {docId : JSString}
    (h : Purged store store' docId) (hempty : store.entries = ∅) : store' = store := by
  rcases h with rfl | rfl
  · rfl
  · rw [removeDocument, if_neg (by simp [hempty])]

variable {item : Item}

variable (store env) in
/-- **The setup document configures the summary** and has no entry. -/
theorem applyDocument_setup (h : item.docId = DB_SETUP_DOC_ID) :
    ∃ store', Reconfigured store store' ∧ Touched store' (store.applyDocument env item) item.docId
      ∧ (store.applyDocument env item).entries.get? item.docId = none := by
  rw [applyDocument, if_pos h]
  refine ⟨if store.hasExplicitConfig then store else store.applyConfig item.config, ?_,
    touched_removeDocument _ item.docId⟩
  split
  · exact Reconfigured.refl
  · exact reconfigured_applyConfig _ _

variable (store env) in
/-- …and a document that is deleted has none. -/
theorem applyDocument_deleted (h : item.docId ≠ DB_SETUP_DOC_ID) (hdeleted : item.doc.isDeleted) :
    Touched store (store.applyDocument env item) item.docId
      ∧ (store.applyDocument env item).entries.get? item.docId = none := by
  rw [applyDocument, if_neg h, if_pos hdeleted]
  exact touched_removeDocument _ item.docId

variable (store env) in
/-- **Any other document gets its entry**, by the configuration of the moment. -/
theorem applyDocument_live (h : item.docId ≠ DB_SETUP_DOC_ID) (hlive : item.doc.isDeleted = false) :
    Touched store (store.applyDocument env item) item.docId
      ∧ (store.applyDocument env item).entries.get? item.docId
        = some (item.entry env store.config) := by
  rw [applyDocument, if_neg h, if_neg (by simp [hlive])]
  refine ⟨⟨rfl, rfl, rfl, rfl, rfl, rfl, fun other hother => ?_, fun bucket hbucket => ?_, ?_⟩, ?_⟩
  · exact LinkedMap.get?_set_of_ne _ _ hother
  · exact LinkedSet.mem_add.mpr (.inr hbucket)
  · exact .inr (LinkedSet.mem_add.mpr (.inl rfl))
  · exact LinkedMap.get?_set_self _ _ _

variable (store env) in
/-- **What applying an item changes**: perhaps the configuration, then the entry of its document. -/
theorem applyDocument_spec (item : Item) :
    ∃ store', Reconfigured store store' ∧ Touched store' (store.applyDocument env item) item.docId
      ∧ ∀ entry, (store.applyDocument env item).entries.get? item.docId = some entry →
        entry = item.entry env (store.applyDocument env item).config := by
  by_cases hsetup : item.docId = DB_SETUP_DOC_ID
  · obtain ⟨store', hstore, htouched, hnone⟩ := applyDocument_setup store env hsetup
    exact ⟨store', hstore, htouched, fun entry h => absurd (hnone.symm.trans h) (by simp)⟩
  · cases hdeleted : item.doc.isDeleted with
    | true =>
      obtain ⟨htouched, hnone⟩ := applyDocument_deleted store env hsetup hdeleted
      exact ⟨store, Reconfigured.refl, htouched, fun entry h => absurd (hnone.symm.trans h) (by simp)⟩
    | false =>
      obtain ⟨htouched, hentry⟩ := applyDocument_live store env hsetup hdeleted
      refine ⟨store, Reconfigured.refl, htouched, fun entry h => ?_⟩
      rw [htouched.config]
      exact Option.some.inj (h.symm.trans hentry)

end DocumentSummaryStore

end MindooDB
