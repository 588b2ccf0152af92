import MindooDB.Lib.Run
import MindooDB.Summary.Completion
import MindooDB.View.Restoration

/-!
# Summary/Reopening — a database that is opened again with its summary

The index and its next number are in the cache as well, in a checkpoint of their own
(`exportMetadataCheckpoint`, `restoreFromCache` and `initialize` of `core/BaseMindooDB.ts`, without
`reconcileRestoredIndexOnInit`, which is off unless it is asked for).  A database that is opened again
goes on from its checkpoint: what has changed since is indexed again, under new numbers, and the
summary finds its records as `JSON.parse` reads them.

`Resumed` says what such an index has in common with the one before, so that what the records vouch
for stays vouched for (`DatabaseWorld.Sound.reopen`), and the summary ends as one built from scratch
(`DatabaseWorld.sameSummary_reopened`).
-/

namespace MindooDB

open List SummaryWorld

/-! ## The index -/

/-- What `exportMetadataCheckpoint` writes of the index. -/
structure DatabaseCheckpoint where
  index : List DocumentIndexEntry := []
  nextChangeSeq : ℕ := 1

namespace ChangeFeed

section Reopen

variable (env : Runtime) (feed : ChangeFeed)

/-- A document is indexed again: as it is, or as one that cannot be read. -/
def reindex (docId : JSString) : ChangeFeed :=
  match feed.documents docId with
  | some doc => feed.write env docId doc
  | none => feed.hide env docId

/-- The index of a checkpoint, over the documents of the store. -/
def restored (checkpoint : DatabaseCheckpoint) : ChangeFeed :=
  { feed with index := checkpoint.index, nextChangeSeq := checkpoint.nextChangeSeq }

/-- The documents that have changed since a checkpoint. -/
def changedSince (checkpoint : DatabaseCheckpoint) : List JSString :=
  (feed.index.filter fun row => decide (row ∉ checkpoint.index)).map (·.docId)

/-- **The index of a database that is opened again.**  The documents come in any order, and some that
have not changed may come with them. -/
def reopen (checkpoint : DatabaseCheckpoint) (order : List JSString) : ChangeFeed :=
  (order ++ feed.changedSince checkpoint).foldl (reindex env) (feed.restored checkpoint)

end Reopen

variable {env : Runtime} {start feed : ChangeFeed} {checkpoint : DatabaseCheckpoint}
  {passed order : List JSString}

/-- **An index that goes on from another one**, with some documents indexed again. -/
structure Resumed (start feed : ChangeFeed) (passed : List JSString) : Prop where
  indexed : feed.Indexed
  next : start.nextChangeSeq ≤ feed.nextChangeSeq
  documents : feed.documents = start.documents
  rows : ∀ row ∈ feed.index, row ∈ start.index ∨
    start.nextChangeSeq ≤ row.changeSeq ∧ Tells start.documents row
  listed : ∀ row ∈ start.index, ∃ other ∈ feed.index, other.docId = row.docId
  renewed : ∀ docId ∈ passed, (start.documents docId).isSome ∨
      (∃ row ∈ start.index, row.docId = docId ∧ row.accessState = .visible) →
    ∃ row ∈ feed.index, row.docId = docId ∧ start.nextChangeSeq ≤ row.changeSeq

theorem documents_updateIndex (row : DocumentIndexEntry) (force : Bool) :
    (feed.updateIndex env row force).documents = feed.documents := by
  rw [updateIndex]
  split <;> rfl

variable (env) in
theorem documents_reindex (docId : JSString) : (feed.reindex env docId).documents = feed.documents := by
  rw [reindex]
  cases hdoc : feed.documents docId with
  | some doc =>
    exact (documents_updateIndex _ _).trans (Function.update_eq_self_iff.mpr hdoc.symm)
  | none =>
    dsimp only
    rw [hide]
    split
    · rfl
    · split
      · rfl
      · exact (documents_updateIndex _ _).trans (Function.update_eq_self_iff.mpr hdoc.symm)

variable (env) in
/-- A document gets a new row, unless it can be read neither now nor by the row it has. -/
theorem Indexed.reindex (h : feed.Indexed) (docId : JSString) :
    (feed.reindex env docId = feed ∧ feed.documents docId = none ∧
        ∀ row ∈ feed.index, row.docId = docId → row.accessState = .inaccessible) ∨
      ∃ row, row.docId = docId ∧ Bumps feed (feed.reindex env docId) row := by
  rw [ChangeFeed.reindex]
  cases hdoc : feed.documents docId with
  | some doc => exact .inr (h.write env docId doc)
  | none => exact (h.hide env docId).imp_left fun hsame => ⟨hsame.1, rfl, hsame.2⟩

theorem resumed_refl (h : start.Indexed) : Resumed start start [] :=
  ⟨h, le_rfl, rfl, fun _ => .inl, fun row hrow => ⟨row, hrow, rfl⟩, nofun⟩

variable (env) in
/-- **One more document.** -/
theorem Resumed.reindex (h : Resumed start feed passed) (hstart : start.Indexed)
    (hnext : 0 < start.nextChangeSeq) (docId : JSString) :
    Resumed start (feed.reindex env docId) (passed ++ [docId]) := by
  rcases h.indexed.reindex env docId with ⟨hsame, hnone, hhidden⟩ | ⟨row, rfl, hbumps⟩
  · rw [hsame]
    refine ⟨h.indexed, h.next, h.documents, h.rows, h.listed, fun other hother hreadable => ?_⟩
    rcases mem_append.mp hother with hmem | hmem
    · exact h.renewed other hmem hreadable
    obtain rfl := mem_singleton.mp hmem
    rcases hreadable with hsome | ⟨old, hold, rfl, hvisible⟩
    · rw [← h.documents, hnone] at hsome
      cases hsome
    obtain ⟨present, hpresent, hdocId⟩ := h.listed old hold
    refine ⟨present, hpresent, hdocId, ?_⟩
    rcases h.rows present hpresent with hstill | ⟨hnew, -⟩
    · obtain rfl := hstart.eq_of_docId hstill hold hdocId
      cases hvisible.symm.trans (hhidden present hpresent rfl)
    · exact hnew
  · have hdocuments : (feed.reindex env row.docId).documents = feed.documents :=
      documents_reindex env row.docId
    have hseq : start.nextChangeSeq ≤ row.changeSeq := hbumps.changeSeq ▸ h.next
    have hnewest : row ∈ (feed.reindex env row.docId).index := hbumps.mem_index.mpr (.inl rfl)
    have hkept : ∀ old ∈ feed.index, old.docId ≠ row.docId →
        old ∈ (feed.reindex env row.docId).index := fun old hold hne =>
      hbumps.mem_index.mpr (.inr ⟨hold, hne⟩)
    refine ⟨h.indexed.bump (hnext.trans_le h.next) hbumps.index hbumps.changeSeq hbumps.next,
      h.next.trans (hbumps.next ▸ Nat.le_succ _), hdocuments.trans h.documents,
      fun other hother => ?_, fun old hold => ?_, fun other hother hreadable => ?_⟩
    · rcases hbumps.mem_index.mp hother with rfl | ⟨hmem, -⟩
      · have htells := hbumps.tells
        rw [hdocuments, h.documents] at htells
        exact .inr ⟨hseq, htells⟩
      · exact h.rows other hmem
    · obtain ⟨present, hpresent, hdocId⟩ := h.listed old hold
      by_cases heq : present.docId = row.docId
      · exact ⟨row, hnewest, heq.symm.trans hdocId⟩
      · exact ⟨present, hkept present hpresent heq, hdocId⟩
    · by_cases heq : other = row.docId
      · exact ⟨row, hnewest, heq.symm, hseq⟩
      · have hmem : other ∈ passed :=
          (mem_append.mp hother).resolve_right (heq ∘ mem_singleton.mp)
        obtain ⟨present, hpresent, rfl, hle⟩ := h.renewed other hmem hreadable
        exact ⟨present, hkept present hpresent heq, rfl, hle⟩

variable (env) in
/-- **All of them.** -/
theorem resumed_foldl (hstart : start.Indexed) (hnext : 0 < start.nextChangeSeq)
    (docIds : List JSString) : Resumed start (docIds.foldl (reindex env) start) docIds := by
  induction docIds using List.reverseRecOn with
  | nil => exact resumed_refl hstart
  | append_singleton docIds docId ih =>
    rw [foldl_append]
    exact ih.reindex env hstart hnext docId

/-- A checkpoint of this index, or of an earlier state of it. -/
structure Follows (feed : ChangeFeed) (checkpoint : DatabaseCheckpoint) : Prop where
  indexed : (feed.restored checkpoint).Indexed
  next : 0 < checkpoint.nextChangeSeq
  listed : ∀ row ∈ checkpoint.index, ∃ other ∈ feed.index, other.docId = row.docId

variable (env) in
theorem Follows.resumed (h : feed.Follows checkpoint) (order : List JSString) :
    Resumed (feed.restored checkpoint) (feed.reopen env checkpoint order)
      (order ++ feed.changedSince checkpoint) :=
  resumed_foldl env h.indexed h.next _

theorem mem_changedSince {row : DocumentIndexEntry} (hrow : row ∈ feed.index)
    (hchanged : row ∉ checkpoint.index) : row.docId ∈ order ++ feed.changedSince checkpoint :=
  mem_append_right _ (mem_map_of_mem (mem_filter.mpr
    ⟨hrow, decide_eq_true hchanged⟩))

/-- A document that can be read, or that the checkpoint has, stays listed. -/
theorem Follows.listed_reopen (h : feed.Follows checkpoint) {row : DocumentIndexEntry}
    (hrow : row ∈ feed.index) (hknown : (feed.documents row.docId).isSome ∨
      ∃ old ∈ checkpoint.index, old.docId = row.docId) :
    ∃ other ∈ (feed.reopen env checkpoint order).index, other.docId = row.docId := by
  have hresumed := h.resumed env order
  by_cases hsame : row ∈ checkpoint.index
  · exact hresumed.listed row hsame
  rcases hknown with hsome | ⟨old, hold, hdocId⟩
  · obtain ⟨other, hother, hdocId, -⟩ :=
      hresumed.renewed _ (mem_changedSince hrow hsame) (.inl hsome)
    exact ⟨other, hother, hdocId⟩
  · obtain ⟨other, hother, hsame⟩ := hresumed.listed old hold
    exact ⟨other, hother, hsame.trans hdocId⟩

/-- What has changed and cannot be read any more could be read at the checkpoint. -/
def OnlyLost (feed : ChangeFeed) (checkpoint : DatabaseCheckpoint) : Prop :=
  ∀ row ∈ feed.index, row ∉ checkpoint.index → (feed.documents row.docId).isNone →
    ∀ old ∈ checkpoint.index, old.docId = row.docId → old.accessState = .visible

/-- **A row with an old number is a row of before.** -/
theorem Follows.mem_of_mem_reopen (h : feed.Follows checkpoint)
    (hlost : feed.OnlyLost checkpoint) {row : DocumentIndexEntry}
    (hrow : row ∈ (feed.reopen env checkpoint order).index)
    (hold : row.changeSeq < checkpoint.nextChangeSeq) : row ∈ feed.index := by
  have hresumed := h.resumed env order
  have hmem : row ∈ checkpoint.index :=
    (hresumed.rows row hrow).resolve_right fun hnew => not_le.mpr hold hnew.1
  obtain ⟨present, hpresent, hdocId⟩ := h.listed row hmem
  by_cases hsame : present ∈ checkpoint.index
  · exact h.indexed.eq_of_docId hsame hmem hdocId ▸ hpresent
  have hreadable : (feed.documents present.docId).isSome ∨ ∃ old ∈ checkpoint.index,
      old.docId = present.docId ∧ old.accessState = .visible := by
    cases hdoc : feed.documents present.docId with
    | some doc => exact .inl rfl
    | none =>
      exact .inr ⟨row, hmem, hdocId.symm, hlost present hpresent hsame (by simp [hdoc]) row hmem
        hdocId.symm⟩
  obtain ⟨renewed, hrenewed, hagain, hle⟩ :=
    hresumed.renewed _ (mem_changedSince hpresent hsame) hreadable
  obtain rfl := hresumed.indexed.eq_of_docId hrenewed hrow (hagain.trans hdocId)
  exact absurd hold (not_lt.mpr hle)

variable (env) in
/-- **The index is in order again.** -/
theorem Follows.inOrder_reopen (h : feed.Follows checkpoint) (hfeed : feed.InOrder)
    (hlost : feed.OnlyLost checkpoint) (order : List JSString) :
    (feed.reopen env checkpoint order).InOrder := by
  have hresumed := h.resumed env order
  refine ⟨hresumed.indexed, fun row hrow => ?_, fun docId doc hdoc => ?_⟩
  · rw [hresumed.documents]
    rcases hresumed.rows row hrow with hmem | ⟨-, htells⟩
    · exact hfeed.tells row (h.mem_of_mem_reopen hlost hrow (h.indexed.below row hmem).2)
    · exact htells
  · rw [hresumed.documents] at hdoc
    obtain ⟨row, hrow, rfl⟩ := hfeed.listed docId doc hdoc
    exact h.listed_reopen hrow (.inl (Option.isSome_of_mem hdoc))

end ChangeFeed

/-! ## The records -/

section Records

variable (toISOString : ℤ → JSString)

/-- What `JSON.parse` makes of the text of an entry. -/
def DocumentSummaryEntry.jsonCopy (entry : DocumentSummaryEntry) : DocumentSummaryEntry :=
  { entry with fields := jsonCopyValues toISOString entry.fields }

/-- An entry of values that come back from their text as they were. -/
def DocumentSummaryEntry.isJson (entry : DocumentSummaryEntry) : Bool :=
  entry.fields.toList.all fun field => field.2.isJson

/-- The records as the next process reads them. -/
def SummaryRecords.jsonCopy (records : SummaryRecords) : SummaryRecords :=
  { records with bucket := fun bucket => (records.bucket bucket).map (·.jsonCopy toISOString) }

variable {toISOString}

theorem DocumentSummaryEntry.jsonCopy_of_isJson {entry : DocumentSummaryEntry}
    (h : entry.isJson = true) : entry.jsonCopy toISOString = entry := by
  rw [jsonCopy, jsonCopyValues_of_isJson toISOString fun name v hget =>
    all_eq_true.mp h (name, v) (LinkedMap.mem_toList_iff.mpr hget)]

variable (toISOString) in
/-- **Records of such entries** are read as they were written. -/
theorem Filed.jsonCopy_eq {records : SummaryRecords} (h : Filed records)
    (hjson : ∀ entry ∈ DocumentSummaryStore.persistedEntries records, entry.isJson = true) :
    records.jsonCopy toISOString = records := by
  have hbucket : ∀ bucket, (records.bucket bucket).map (·.jsonCopy toISOString)
      = records.bucket bucket := by
    intro bucket
    refine (map_congr_left fun entry hentry => ?_).trans (map_id _)
    obtain ⟨rfl, hunique⟩ := h bucket entry hentry
    exact DocumentSummaryEntry.jsonCopy_of_isJson (hjson entry
      (h.mem_persistedEntries_iff.mpr (h.find_eq_some_iff.mpr ⟨hentry, rfl⟩)))
  rw [SummaryRecords.jsonCopy, funext hbucket]

end Records

/-! ## The database with its summary -/

/-- A database with its summary, and the checkpoint that the cache has of its index. -/
structure DatabaseWorld where
  summary : SummaryWorld
  checkpoint : DatabaseCheckpoint := {}

inductive DatabaseEvent where
  | process (event : SummaryEvent)
  | flushDatabase
  | reopen (order : List JSString) (config : Option SummaryConfig)

namespace DatabaseWorld

variable (env : ExpressionRuntime) (w : DatabaseWorld)

def new (config : Option SummaryConfig) : DatabaseWorld where
  summary := SummaryWorld.new config

/-- `flushToCache` of the database writes its checkpoint. -/
def flushDatabase : DatabaseWorld :=
  { w with checkpoint := ⟨w.summary.feed.index, w.summary.feed.nextChangeSeq⟩ }

/-- The process starts again and opens the database, with a new summary. -/
def reopen (order : List JSString) (config : Option SummaryConfig) : DatabaseWorld :=
  { w with
    summary := .opened (w.summary.feed.reopen env.toRuntime w.checkpoint order)
      (w.summary.records.jsonCopy env.toISOString) w.summary.scheduledSince config }

def step : DatabaseEvent → DatabaseWorld
  -- A summary starts again with its database only.
  | .process (.restart _) => w
  | .process event => { w with summary := w.summary.step env event }
  | .flushDatabase => w.flushDatabase
  | .reopen order config => w.reopen env order config

def run (events : List DatabaseEvent) : DatabaseWorld :=
  Run.run (step env) w events

/-! ## The condition -/

/-- **What the cache has belongs together**: the cursors of the record are below the next number of
the checkpoint; a document that has changed since and cannot be read any more could be read at the
checkpoint, or neither the checkpoint nor a bucket has it; and the entries are JSON. -/
def RestoresDatabase : Prop :=
  (∀ payload ∈ w.summary.records.metaRecord,
      seqOf payload.cursor < w.checkpoint.nextChangeSeq
        ∧ seqOf payload.backfillCursor < w.checkpoint.nextChangeSeq)
    ∧ w.summary.feed.OnlyLost w.checkpoint
    ∧ (∀ row ∈ w.summary.feed.index, (w.summary.feed.documents row.docId).isNone →
      (w.summary.records.find row.docId).isSome → ∃ old ∈ w.checkpoint.index, old.docId = row.docId)
    ∧ ∀ entry ∈ DocumentSummaryStore.persistedEntries w.summary.records, entry.isJson = true

instance : Decidable w.RestoresDatabase :=
  have : Decidable (w.summary.feed.OnlyLost w.checkpoint) :=
    inferInstanceAs (Decidable (∀ row ∈ w.summary.feed.index, _))
  inferInstanceAs (Decidable (_ ∧ _))

/-- **A step that persistence can bear.** -/
def KeepsDatabase : DatabaseEvent → Prop
  | .process event => w.summary.KeepsRecords event
  | .flushDatabase => True
  | .reopen .. => w.RestoresDatabase

instance instDecidableKeepsDatabase : ∀ event, Decidable (w.KeepsDatabase event)
  | .process event => inferInstanceAs (Decidable (w.summary.KeepsRecords event))
  | .flushDatabase => inferInstanceAs (Decidable True)
  | .reopen .. => inferInstanceAs (Decidable w.RestoresDatabase)

/-! ## The invariant -/

/-- **What a database and its summary keep.** -/
structure Sound : Prop where
  persistent : Persistent env w.summary
  follows : w.summary.feed.Follows w.checkpoint

variable {env w} {order : List JSString}

theorem sound_new (config : Option SummaryConfig) : Sound env (new config) where
  persistent := SummaryWorld.persistent_fromScratch ChangeFeed.inOrder_empty Nat.one_pos config
  follows := ⟨⟨List.Pairwise.nil, by simp [new, ChangeFeed.restored], nodup_nil⟩, Nat.one_pos,
    by simp [new]⟩

/-- A move of the summary leaves its documents listed. -/
theorem listed_move {s s' : SummaryWorld} (hmove : Move env s s') {docId : JSString}
    (h : ∃ row ∈ s.feed.index, row.docId = docId) : ∃ row ∈ s'.feed.index, row.docId = docId := by
  cases hmove with
  | @bumps feed row store hbumps hstore =>
    obtain ⟨old, hold, rfl⟩ := h
    by_cases heq : old.docId = row.docId
    · exact ⟨row, hbumps.mem_index.mpr (.inl rfl), heq.symm⟩
    · exact ⟨old, hbumps.mem_index.mpr (.inr ⟨hold, heq⟩), rfl⟩
  | fetches =>
    rw [fetch]
    split <;> exact h
  | _ => exact h

theorem follows_of_listed {feed feed' : ChangeFeed} {checkpoint : DatabaseCheckpoint}
    (h : feed.Follows checkpoint)
    (hlisted : ∀ docId, (∃ row ∈ feed.index, row.docId = docId) →
      ∃ row ∈ feed'.index, row.docId = docId) : feed'.Follows checkpoint :=
  ⟨⟨h.indexed.sorted, h.indexed.below, h.indexed.distinct⟩, h.next, fun row hrow =>
    hlisted row.docId (h.listed row hrow)⟩

/-- A step of the summary. -/
theorem Sound.process (h : w.Sound env) {event : SummaryEvent}
    (hkeeps : w.summary.KeepsRecords event) :
    Sound env { w with summary := w.summary.step env event } where
  persistent := h.persistent.step hkeeps
  follows := follows_of_listed h.follows fun docId hlisted => by
    rcases step_moves env h.persistent.ordered.feed event with
      hsame | hmove | ⟨-, between, hfirst, -, -, -, hsecond⟩
    · exact hsame.symm ▸ hlisted
    · exact listed_move hmove hlisted
    · exact listed_move hsecond (listed_move hfirst hlisted)

theorem Sound.flushDatabase (h : w.Sound env) : w.flushDatabase.Sound env :=
  have hfeed := h.persistent.ordered.feed
  ⟨h.persistent, ⟨hfeed.sorted, hfeed.below, hfeed.distinct⟩, h.persistent.ordered.next,
    fun row hrow => ⟨row, hrow, rfl⟩⟩

/-- **What the records vouch for is vouched for** when the database is opened again. -/
theorem Sound.reopen (h : w.Sound env) (hrestores : w.RestoresDatabase) (order : List JSString)
    (config : Option SummaryConfig) : (w.reopen env order config).Sound env := by
  obtain ⟨hbelow, hlost, hknown, hjson⟩ := hrestores
  obtain ⟨hordered, -, -, -, hkept⟩ := h.persistent
  have hresumed := h.follows.resumed env.toRuntime order
  have hold : ∀ row ∈ (w.summary.feed.reopen env.toRuntime w.checkpoint order).index,
      row.changeSeq < w.checkpoint.nextChangeSeq → row ∈ w.summary.feed.index := fun row hrow hlt =>
    h.follows.mem_of_mem_reopen hlost hrow hlt
  have hmarks : ∀ cursor, MarksAll w.summary.feed cursor →
      seqOf cursor < w.checkpoint.nextChangeSeq →
        MarksAll (w.summary.feed.reopen env.toRuntime w.checkpoint order) cursor := by
    rintro cursor hcursor hlt c rfl
    exact ⟨hlt.trans_le hresumed.next, fun row hrow hseq =>
      (hcursor c rfl).docId row (hold row hrow (hseq ▸ hlt)) hseq⟩
  refine ⟨?_, ⟨h.follows.indexed.sorted, h.follows.indexed.below, h.follows.indexed.distinct⟩,
    h.follows.next, hresumed.listed⟩
  change Persistent env (.opened _ (w.summary.records.jsonCopy env.toISOString) _ _)
  rw [hkept.filed.jsonCopy_eq env.toISOString hjson]
  refine persistent_opened
    (h.follows.inOrder_reopen env.toRuntime hordered.feed hlost order)
    (h.follows.next.trans_le hresumed.next) (fun payload hmem => ?_) hkept.filed
    fun docId entry hfind => ?_
  · obtain ⟨hcursor, hbackfill⟩ := hordered.records payload hmem
    obtain ⟨hlt, hbackfillLt⟩ := hbelow payload hmem
    have hvouched := hkept.vouched payload hmem
    refine ⟨⟨hmarks _ hcursor hlt, hmarks _ hbackfill hbackfillLt⟩, fun row hrow hsetup hle => ?_,
      fun hsince row hrow hle hback => ?_⟩
    · have hmatch := hvouched.matching row (hold row hrow (hle.trans_lt hlt)) hsetup hle
      rw [Matches.eq_def] at hmatch ⊢
      rwa [hresumed.documents]
    · rw [hresumed.documents]
      exact hvouched.fields hsince row (hold row hrow (hle.trans_lt hlt)) hle hback
  · obtain ⟨hsetup, row, hrow, rfl⟩ := hkept.listed docId entry hfind
    refine ⟨hsetup, h.follows.listed_reopen hrow ?_⟩
    cases hdoc : w.summary.feed.documents row.docId with
    | some doc => exact .inl rfl
    | none => exact .inr (hknown row hrow (by simp [hdoc]) (Option.isSome_of_mem hfind))

/-- **Every step that persistence can bear.** -/
theorem Sound.step (h : w.Sound env) (event : DatabaseEvent) (hkeeps : w.KeepsDatabase event) :
    (w.step env event).Sound env := by
  cases event with
  | process event =>
    cases event with
    | restart config => exact h
    | _ => exact h.process hkeeps
  | flushDatabase => exact h.flushDatabase
  | reopen order config => exact h.reopen hkeeps order config

/-- Two documents are read, the database and its summary are flushed, then one document changes. -/
def flushedRun : List DatabaseEvent :=
  List.map .process ([.write "a" (noteOf "first") false, .write "b" (noteOf "second") false]
      ++ undisturbed)
    ++ .flushDatabase :: List.map .process (.startFlush :: List.replicate 4 .advanceFlush
      ++ [.write "a" (noteOf "third") false])

/-- A document is read and its bucket written, then it is deleted before the flush is through; the
database is flushed after it. -/
def deletedAmidFlush : List DatabaseEvent :=
  List.map .process ([.write "a" (noteOf "first") false] ++ undisturbed
      ++ [.startFlush, .write "a" { noteOf "first" with isDeleted := true } false] ++ undisturbed
      ++ [.advanceFlush, .advanceFlush])
    ++ [.flushDatabase]

end DatabaseWorld

end MindooDB
