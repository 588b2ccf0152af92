import MindooDB.Summary.Fielded

/-!
# Summary/Kept — what the cache holds of the summary

An entry is looked up in the bucket of its document: what is restored is what the buckets hold
(`Filed.get?_restored`).

`Kept`: the buckets without a mark hold the entries of the summary, and the record of the cursors
vouches for the entries in the buckets up to its cursor.  A flush breaks it when an entry is written
or removed while it is under way, because it forgets the mark; so does a restart that comes back to
the fingerprint of the record after another configuration has been at work.
-/

namespace MindooDB

open DocumentSummaryStore LinkedMap

/-! ## Entries in buckets -/

/-- The entry of a document in its bucket. -/
def SummaryRecords.find (records : SummaryRecords) (docId : JSString) :
    Option DocumentSummaryEntry :=
  (records.bucket (bucketIndexFor docId)).find? fun entry => decide (entry.docId = docId)

/-- Every entry is in the bucket of its document, one for each. -/
def Filed (records : SummaryRecords) : Prop :=
  ∀ bucket, ∀ entry ∈ records.bucket bucket, bucketIndexFor entry.docId = bucket
    ∧ ∀ other ∈ records.bucket bucket, other.docId = entry.docId → other = entry

/-- Every entry is under the id of its document. -/
def Keyed (entries : LinkedMap JSString DocumentSummaryEntry) : Prop :=
  ∀ {docId entry}, entries.get? docId = some entry → entry.docId = docId

variable {entry : DocumentSummaryEntry} {records : SummaryRecords}

theorem find?_eq_of_unique {l : List DocumentSummaryEntry}
    (hmem : entry ∈ l) (hunique : ∀ other ∈ l, other.docId = entry.docId → other = entry) :
    l.find? (fun other => decide (other.docId = entry.docId)) = some entry := by
  cases hfind : l.find? fun other => decide (other.docId = entry.docId) with
  | none => exact absurd (decide_eq_true rfl) (List.find?_eq_none.mp hfind entry hmem)
  | some other =>
    have hdocId : other.docId = entry.docId := by simpa using List.find?_some hfind
    rw [hunique other (List.mem_of_find?_eq_some hfind) hdocId]

theorem Filed.find_eq_some_iff (h : Filed records) {docId : JSString}
    : records.find docId = some entry ↔
      entry ∈ records.bucket (bucketIndexFor docId) ∧ entry.docId = docId := by
  constructor
  · intro hfind
    exact ⟨List.mem_of_find?_eq_some hfind, by simpa using List.find?_some hfind⟩
  · rintro ⟨hmem, rfl⟩
    exact find?_eq_of_unique hmem (h _ entry hmem).2

theorem Filed.mem_persistedEntries_iff (h : Filed records) :
    entry ∈ persistedEntries records ↔ records.find entry.docId = some entry := by
  rw [h.find_eq_some_iff, persistedEntries, List.mem_flatMap]
  constructor
  · rintro ⟨bucket, -, hmem⟩
    rw [(h bucket entry hmem).1]
    exact ⟨hmem, rfl⟩
  · exact fun hmem =>
      ⟨bucketIndexFor entry.docId, List.mem_range.mpr (Nat.mod_lt _ (by decide)), hmem.1⟩

/-- Entries that are put into a map one after the other, one for each document. -/
theorem get?_foldl_putEntry {l : List DocumentSummaryEntry}
    {entries : LinkedMap JSString DocumentSummaryEntry} {docId : JSString}
    (hunique : ∀ entry ∈ l, entry.docId = docId → ∀ other ∈ l, other.docId = docId →
      other = entry) :
    (l.foldl putEntry entries).get? docId
      = (l.find? fun entry => decide (entry.docId = docId)).or (entries.get? docId) := by
  induction l generalizing entries with
  | nil => rfl
  | cons first l ih =>
    rw [List.foldl_cons, ih fun entry hentry heq other hother => hunique entry
      (List.mem_cons_of_mem _ hentry) heq other (List.mem_cons_of_mem _ hother)]
    by_cases heq : first.docId = docId
    · subst heq
      rw [List.find?_cons_of_pos (by simp), putEntry, get?_set_self]
      cases hfind : l.find? fun entry => decide (entry.docId = first.docId) with
      | none => rfl
      | some other =>
        rw [hunique first List.mem_cons_self rfl other
          (List.mem_cons_of_mem _ (List.mem_of_find?_eq_some hfind))
          (by simpa using List.find?_some hfind)]
        rfl
    · rw [List.find?_cons_of_neg (by simpa using heq), putEntry, get?_set_of_ne _ _ (Ne.symm heq)]

/-- **What is restored is what the buckets hold.** -/
theorem Filed.get?_restored (h : Filed records) (docId : JSString) :
    ((persistedEntries records).foldl putEntry ∅).get? docId = records.find docId := by
  have hunique : ∀ entry ∈ persistedEntries records, entry.docId = docId →
      ∀ other ∈ persistedEntries records, other.docId = docId →
        other = entry := by
    rintro entry hentry rfl other hother heq
    have hfirst := h.mem_persistedEntries_iff.mp hentry
    have hsecond := h.mem_persistedEntries_iff.mp hother
    rw [heq] at hsecond
    exact Option.some.inj (hsecond.symm.trans hfirst)
  rw [get?_foldl_putEntry hunique, get?_empty, Option.or_none]
  cases hfind : records.find docId with
  | none =>
    refine List.find?_eq_none.mpr fun entry hentry heq => ?_
    obtain rfl : entry.docId = docId := of_decide_eq_true heq
    exact nomatch (h.mem_persistedEntries_iff.mp hentry).symm.trans hfind
  | some entry =>
    obtain ⟨-, rfl⟩ := h.find_eq_some_iff.mp hfind
    exact find?_eq_of_unique (h.mem_persistedEntries_iff.mpr hfind) fun other hother heq =>
      hunique entry (h.mem_persistedEntries_iff.mpr hfind) rfl other hother heq

/-- The entries of a bucket, looked up. -/
theorem find?_bucketEntries {store : DocumentSummaryStore} (hkeyed : Keyed store.entries)
    (docId : JSString) : ((store.bucketEntries (bucketIndexFor docId)).find? fun entry =>
      decide (entry.docId = docId)) = store.entries.get? docId := by
  have hmem : ∀ entry, entry ∈ store.bucketEntries (bucketIndexFor docId) →
      store.entries.get? entry.docId = some entry := by
    intro entry hentry
    obtain ⟨key, hkey⟩ := mem_values_iff.mp (List.mem_of_mem_filter hentry)
    rw [hkeyed hkey]
    exact hkey
  cases hget : store.entries.get? docId with
  | none =>
    refine List.find?_eq_none.mpr fun entry hentry heq => ?_
    obtain rfl : entry.docId = docId := of_decide_eq_true heq
    exact nomatch (hmem entry hentry).symm.trans hget
  | some entry =>
    obtain rfl := hkeyed hget
    refine find?_eq_of_unique (List.mem_filter.mpr ⟨mem_values_iff.mpr ⟨_, hget⟩,
      decide_eq_true rfl⟩) fun other hother heq => ?_
    have hother := hmem other hother
    rw [heq] at hother
    exact Option.some.inj (hother.symm.trans hget)

theorem filed_bucketEntries {store : DocumentSummaryStore} (hkeyed : Keyed store.entries)
    {bucket : ℕ} (h : entry ∈ store.bucketEntries bucket) :
    bucketIndexFor entry.docId = bucket
      ∧ ∀ other ∈ store.bucketEntries bucket, other.docId = entry.docId → other = entry := by
  obtain ⟨hvalue, hbucket⟩ := List.mem_filter.mp h
  refine ⟨of_decide_eq_true hbucket, fun other hother heq => ?_⟩
  obtain ⟨key, hkey⟩ := mem_values_iff.mp hvalue
  obtain ⟨key', hkey'⟩ := mem_values_iff.mp (List.mem_of_mem_filter hother)
  rw [← hkeyed hkey, ← heq, hkeyed hkey', hkey'] at hkey
  exact Option.some.inj hkey

/-- **A bucket is written**: its documents have the entries of the summary, the others stay. -/
theorem find_putBucket {w : SummaryWorld} (bucket : ℕ) (hkeyed : Keyed w.store.entries)
    (docId : JSString) : (w.putBucket bucket (w.store.bucketEntries bucket)).find docId
      = if bucketIndexFor docId = bucket then w.store.entries.get? docId
        else w.records.find docId := by
  rw [SummaryRecords.find, SummaryWorld.putBucket]
  change ((Function.update w.records.bucket bucket _ (bucketIndexFor docId)).find? _) = _
  by_cases heq : bucketIndexFor docId = bucket
  · subst heq
    rw [Function.update_self, if_pos rfl]
    exact find?_bucketEntries hkeyed docId
  · rw [Function.update_of_ne heq, if_neg heq]
    rfl

theorem Filed.putBucket {w : SummaryWorld} {bucket : ℕ} (h : Filed w.records)
    (hkeyed : Keyed w.store.entries) :
    Filed (w.putBucket bucket (w.store.bucketEntries bucket)) := by
  intro other
  change ∀ entry ∈ Function.update w.records.bucket bucket (w.store.bucketEntries bucket) other,
    bucketIndexFor entry.docId = other ∧ ∀ entry' ∈ Function.update w.records.bucket bucket
      (w.store.bucketEntries bucket) other, entry'.docId = entry.docId → entry' = entry
  by_cases heq : other = bucket
  · subst heq
    rw [Function.update_self]
    exact fun entry hentry => filed_bucketEntries hkeyed hentry
  · rw [Function.update_of_ne heq]
    exact h other

end MindooDB

namespace MindooDB

open DocumentSummaryStore LinkedMap

/-- **The record vouches for the buckets**: for what is behind its cursor and, unless a backfill has
been scheduled since, for the fields. -/
structure Vouched (env : ExpressionRuntime) (feed : ChangeFeed) (records : SummaryRecords)
    (scheduledSince : Bool) (payload : SummaryMetaPayload) : Prop where
  matching : ∀ row ∈ feed.index, row.docId ≠ DB_SETUP_DOC_ID →
    row.changeSeq ≤ seqOf payload.cursor → Matches feed row (records.find row.docId)
  fields : scheduledSince = false → ∀ row ∈ feed.index, row.changeSeq ≤ seqOf payload.cursor →
    (payload.needsBackfill = true → row.changeSeq ≤ seqOf payload.backfillCursor) →
    FieldsMatch env (records.find row.docId) (feed.documents row.docId) payload.configFingerprint

namespace SummaryWorld

variable (env : ExpressionRuntime) (w : SummaryWorld)

/-- **The cache keeps the summary.** -/
structure Kept : Prop where
  filed : Filed w.records
  listed : ∀ docId entry, w.records.find docId = some entry →
    docId ≠ DB_SETUP_DOC_ID ∧ ∃ row ∈ w.feed.index, row.docId = docId
  clean : w.store.restored = true → ∀ docId, bucketIndexFor docId ∉ w.store.dirtyBuckets →
    w.records.find docId = w.store.entries.get? docId
  writing : ∀ byBucket position, w.flush = .writing byBucket position →
    byBucket = w.store.byBucket ∧ ∀ docId,
      bucketIndexFor docId ∈ w.store.dirtyBuckets.toList.take position →
        w.records.find docId = w.store.entries.get? docId
  clearing : w.flush = .clearing → w.store.restored = true → ∀ docId,
    w.records.find docId = w.store.entries.get? docId
  vouched : ∀ payload ∈ w.records.metaRecord,
    Vouched env w.feed w.records w.scheduledSince payload
  behind : w.store.restored = true → ∀ payload ∈ w.records.metaRecord,
    (payload.cursor.isSome → w.store.cursor.isSome) ∧ seqOf payload.cursor ≤ seqOf w.store.cursor
  knows : w.scheduledSince = false → w.store.restored = true → ∀ payload ∈ w.records.metaRecord,
    payload.cursor.isSome → payload.configFingerprint = w.store.configFingerprint ∧
      (w.store.needsBackfill = true → payload.needsBackfill = true
        ∧ seqOf payload.backfillCursor ≤ seqOf w.store.backfillCursor)
  reading : ∀ payload, w.update = .restoringBuckets payload →
    Vouched env w.feed w.records w.scheduledSince payload ∧ ∀ other ∈ w.records.metaRecord,
      other.cursor.isSome → other = payload

variable {env w} {w' : SummaryWorld}

/-- Before anything is restored there is only the cache to look at. -/
theorem kept_opened {feed : ChangeFeed} {records : SummaryRecords} {since : Bool}
    {config : Option SummaryConfig} (hfiled : Filed records)
    (hlisted : ∀ docId entry, records.find docId = some entry →
      docId ≠ DB_SETUP_DOC_ID ∧ ∃ row ∈ feed.index, row.docId = docId)
    (hvouched : ∀ payload ∈ records.metaRecord, Vouched env feed records since payload) :
    Kept env (opened feed records since config) where
  filed := hfiled
  listed := hlisted
  clean h := by cases h
  writing _ _ h := by cases h
  clearing h := by cases h
  vouched := hvouched
  behind h := by cases h
  knows _ h := by cases h
  reading _ h := by cases h

end SummaryWorld

variable {feed : ChangeFeed} {payload : SummaryMetaPayload} {records : SummaryRecords}
  {row : DocumentIndexEntry}

theorem Vouched.bumps {env : ExpressionRuntime} {feed' : ChangeFeed} {since : Bool}
    (h : Vouched env feed records since payload) (hbumps : ChangeFeed.Bumps feed feed' row)
    (hbelow : seqOf payload.cursor < feed.nextChangeSeq) :
    Vouched env feed' records since payload := by
  have hold : ∀ other ∈ feed'.index, other.changeSeq ≤ seqOf payload.cursor →
      other ∈ feed.index ∧ other.docId ≠ row.docId := by
    intro other hother hle
    rcases hbumps.mem_index.mp hother with rfl | hmem
    · rw [hbumps.changeSeq] at hle
      exact absurd hle (not_le.mpr hbelow)
    · exact hmem
  refine ⟨fun other hother hsetup hle => ?_, fun hsince other hother hle hback => ?_⟩
  · obtain ⟨hmem, hne⟩ := hold other hother hle
    have hmatch : Matches feed other (records.find other.docId) := h.matching other hmem hsetup hle
    exact hmatch.bumps hbumps hne
  · obtain ⟨hmem, hne⟩ := hold other hother hle
    rw [hbumps.documents _ hne]
    exact h.fields hsince other hmem hle hback

theorem Vouched.mono {env : ExpressionRuntime}
    {since since' : Bool} (h : Vouched env feed records since payload)
    (hsince : since' = false → since = false) : Vouched env feed records since' payload :=
  ⟨h.matching, fun hfalse => h.fields (hsince hfalse)⟩

/-- A record without a cursor vouches for nothing. -/
theorem vouched_of_cursor {env : ExpressionRuntime} {since : Bool} (hfeed : feed.InOrder)
    (hcursor : payload.cursor = none) : Vouched env feed records since payload := by
  have hnone : ∀ row ∈ feed.index, ¬row.changeSeq ≤ seqOf payload.cursor := by
    intro row hrow
    rw [hcursor]
    exact not_le.mpr (hfeed.below row hrow).1
  exact ⟨fun row hrow _ hle => absurd hle (hnone row hrow),
    fun _ row hrow hle => absurd hle (hnone row hrow)⟩

namespace SummaryWorld

variable {env : ExpressionRuntime} {w w' : SummaryWorld}

theorem byBucket_congr {store store' : DocumentSummaryStore} (hentries : store'.entries = store.entries)
    (hdirty : store'.dirtyBuckets = store.dirtyBuckets) : store'.byBucket = store.byBucket := by
  funext bucket
  rw [DocumentSummaryStore.byBucket, DocumentSummaryStore.byBucket, hdirty,
    bucketEntries, bucketEntries, hentries]

variable {lastRead : JSString → Option InternalDoc} {store : DocumentSummaryStore}

variable {update : UpdatePhase} {byBucket : ℕ → List DocumentSummaryEntry}

/-- **A move that leaves the records and the flush**, and the entries while one is under way. -/
theorem Kept.congr (h : w.Kept env) {configLoading scheduledSince : Bool}
    (hlisted : ∀ docId, (∃ row ∈ w.feed.index, row.docId = docId) →
      ∃ row ∈ feed.index, row.docId = docId)
    (hvouched : ∀ payload,
      (payload ∈ w.records.metaRecord ∨ w.update = .restoringBuckets payload) →
      Vouched env w.feed w.records w.scheduledSince payload →
        Vouched env feed w.records scheduledSince payload)
    (hrestored : store.restored = w.store.restored)
    (hclean : ∀ docId, bucketIndexFor docId ∉ store.dirtyBuckets →
      bucketIndexFor docId ∉ w.store.dirtyBuckets
        ∧ store.entries.get? docId = w.store.entries.get? docId)
    (hquiet : w.flush ≠ .idle → store.entries = w.store.entries
      ∧ store.dirtyBuckets = w.store.dirtyBuckets)
    (hcursor : (w.store.cursor.isSome → store.cursor.isSome)
      ∧ seqOf w.store.cursor ≤ seqOf store.cursor)
    (hknows : scheduledSince = false → w.store.restored = true → w.scheduledSince = false
      ∧ (w.store.cursor.isSome → store.configFingerprint = w.store.configFingerprint ∧
        (store.needsBackfill = true → w.store.needsBackfill = true
          ∧ seqOf w.store.backfillCursor ≤ seqOf store.backfillCursor)))
    (hreading : ∀ payload, update = .restoringBuckets payload → w.update = .restoringBuckets payload) :
    Kept env
      { w with
        feed := feed
        store := store
        update := update
        configLoading := configLoading
        lastRead := lastRead
        scheduledSince := scheduledSince } where
  filed := h.filed
  listed docId entry hfind := ⟨(h.listed docId entry hfind).1, hlisted docId (h.listed docId entry hfind).2⟩
  clean hrest docId hdirty := by
    obtain ⟨hold, hsame⟩ := hclean docId hdirty
    exact (h.clean (hrestored.symm.trans hrest) docId hold).trans hsame.symm
  writing byBucket position hflush := by
    have hflush' : w.flush = .writing byBucket position := hflush
    obtain ⟨hentries, hdirty⟩ := hquiet (by simp [hflush'])
    obtain ⟨hgroup, hwritten⟩ := h.writing byBucket position hflush
    refine ⟨hgroup.trans (byBucket_congr hentries hdirty).symm, fun docId hmem => ?_⟩
    change w.records.find docId = store.entries.get? docId
    rw [hentries]
    exact hwritten docId (hdirty ▸ hmem)
  clearing hflush hrest docId := by
    have hflush' : w.flush = .clearing := hflush
    change w.records.find docId = store.entries.get? docId
    rw [(hquiet (by simp [hflush'])).1]
    exact h.clearing hflush (hrestored.symm.trans hrest) docId
  vouched payload hmem := hvouched payload (.inl hmem) (h.vouched payload hmem)
  behind hrest payload hmem := by
    obtain ⟨hsome, hle⟩ := h.behind (hrestored.symm.trans hrest) payload hmem
    exact ⟨fun hp => hcursor.1 (hsome hp), hle.trans hcursor.2⟩
  knows hsince hrest payload hmem hsome := by
    have hrest' := hrestored.symm.trans hrest
    obtain ⟨hold, hstore⟩ := hknows hsince hrest'
    obtain ⟨hfingerprint, hneeds⟩ := hstore ((h.behind hrest' payload hmem).1 hsome)
    obtain ⟨hfp, hback⟩ := h.knows hold hrest' payload hmem hsome
    refine ⟨hfp.trans hfingerprint.symm, fun hstill => ?_⟩
    obtain ⟨hbefore, hmoved⟩ := hneeds hstill
    exact ⟨(hback hbefore).1, (hback hbefore).2.trans hmoved⟩
  reading payload hupdate := by
    have hbefore := hreading payload hupdate
    exact ⟨hvouched payload (.inr hbefore) (h.reading payload hbefore).1,
      (h.reading payload hbefore).2⟩

/-- A row that the backfill will come to is beyond its cursor. -/
theorem RowDue.beyond (hordered : w.Ordered) (hrow : row ∈ w.feed.index) (h : w.RowDue row) :
    w.store.needsBackfill = true ∧ seqOf w.store.backfillCursor < row.changeSeq := by
  rw [RowDue] at h
  cases hrows : w.backfilling with
  | none =>
    rw [hrows] at h
    exact h
  | some rows =>
    rw [hrows] at h
    obtain ⟨remaining, pending, hupdate⟩ := exists_of_backfilling (w := w) (by simp [hrows])
    have hpass := hordered.passing hupdate
    obtain ⟨after, hiter, -, hafter⟩ := hpass.after
    refine ⟨hpass.needsBackfill rfl, ?_⟩
    cases hcursor : w.store.backfillCursor with
    | none => exact (hordered.feed.below row hrow).1
    | some c => exact (hafter rfl c hcursor).symm.trans_lt (hiter.marks _ (hupdate ▸ h)).1

theorem Tracks.keyed_entries (h : w.Tracks) : Keyed w.store.entries := fun hget => (h.keyed hget).1

/-- A change of the configuration that has scheduled no backfill has changed nothing that is
behind a cursor. -/
theorem Reconfigured.knows {store' : DocumentSummaryStore}
    (hstore : Reconfigured store store')
    (hscheduled : store.scheduled store' = false) (hcursor : store.cursor.isSome) :
    store'.config = store.config ∧ store'.needsBackfill = store.needsBackfill
      ∧ store'.backfillCursor = store.backfillCursor := by
  rcases hstore.outcome with ⟨hconfig, hneeds, hnone, -⟩ | ⟨hneeds, hback, hsame⟩
  · refine absurd hscheduled ?_
    simp [scheduled, hconfig, hneeds, hnone]
  · refine ⟨hsame.resolve_right fun hempty => ?_, hneeds, hback⟩
    rw [hempty.2] at hcursor
    cases hcursor

theorem Kept.touched (h : w.Kept env) {docId : JSString}
    (htouched : w.store.Touched store docId) (hquiet : w.flush ≠ .idle →
      store.entries = w.store.entries ∧ store.dirtyBuckets = w.store.dirtyBuckets)
    (hlisted : ∀ docId, (∃ row ∈ w.feed.index, row.docId = docId) →
      ∃ row ∈ feed.index, row.docId = docId)
    (hvouched : ∀ payload,
      (payload ∈ w.records.metaRecord ∨ w.update = .restoringBuckets payload) →
      Vouched env w.feed w.records w.scheduledSince payload →
        Vouched env feed w.records w.scheduledSince payload) :
    Kept env { w with feed := feed, store := store, lastRead := lastRead } := by
  refine h.congr hlisted hvouched htouched.restored
    (fun other hdirty => ⟨fun hmem => hdirty (htouched.dirty _ hmem), ?_⟩) hquiet ?_ ?_ fun _ => id
  · by_cases heq : other = docId
    · subst heq
      exact htouched.marked.resolve_right hdirty
    · exact htouched.others other heq
  · rw [htouched.cursor]
    exact ⟨id, le_rfl⟩
  · intro hsince _
    rw [configFingerprint, htouched.config, htouched.needsBackfill, htouched.backfillCursor]
    exact ⟨hsince, fun _ => ⟨rfl, fun hneeds => ⟨hneeds, le_rfl⟩⟩⟩

theorem Kept.bumps (h : w.Kept env) (hordered : w.Ordered)
    (hbumps : ChangeFeed.Bumps w.feed feed row) (htouched : w.store.Touched store row.docId)
    (hquiet : w.flush ≠ .idle → store.entries = w.store.entries
      ∧ store.dirtyBuckets = w.store.dirtyBuckets) :
    Kept env { w with feed := feed, store := store, lastRead := lastRead } := by
  refine h.touched htouched hquiet ?_ fun payload hpayload hvouched => hvouched.bumps hbumps ?_
  · rintro docId ⟨other, hother, rfl⟩
    by_cases heq : other.docId = row.docId
    · exact ⟨row, hbumps.mem_index.mpr (.inl rfl), heq.symm⟩
    · exact ⟨other, hbumps.mem_index.mpr (.inr ⟨hother, heq⟩), rfl⟩
  · refine hordered.seqOf_lt ?_
    rcases hpayload with hmem | hupdate
    · exact (hordered.records payload hmem).1
    · exact (hordered.payload payload hupdate).1

theorem Kept.configures (h : w.Kept env)
    {configLoading scheduledSince : Bool} (hstore : w.store.Reconfigured store)
    (hphase : update = w.update ∨ w.update.Outside ∧ w.Fits update)
    (hsince : scheduledSince = (w.scheduledSince || w.store.scheduled store)) :
    Kept env
      { w with
        store := store
        update := update
        configLoading := configLoading
        scheduledSince := scheduledSince } := by
  have hboth : scheduledSince = false → w.scheduledSince = false
      ∧ w.store.scheduled store = false := by
    rintro rfl
    simpa using hsince.symm
  refine h.congr (fun _ => id) (fun _ _ hvouched => hvouched.mono fun hfalse => (hboth hfalse).1)
    hstore.restored (fun docId hdirty => ⟨hstore.dirtyBuckets ▸ hdirty, ?_⟩)
    (fun _ => ⟨hstore.entries, hstore.dirtyBuckets⟩) ?_ (fun hfalse _ => ⟨(hboth hfalse).1, ?_⟩) ?_
  · rw [hstore.entries]
  · rw [hstore.cursor]
    exact ⟨id, le_rfl⟩
  · intro hcursor
    obtain ⟨hconfig, hneeds, hback⟩ := Reconfigured.knows hstore (hboth hfalse).2 hcursor
    rw [configFingerprint, hconfig, hneeds, hback]
    exact ⟨rfl, fun hneeds => ⟨hneeds, le_rfl⟩⟩
  · intro payload heq
    rcases hphase with rfl | ⟨-, hfits⟩
    · exact heq
    · rw [heq] at hfits
      exact hfits.elim

/-- The update goes on without touching anything that is flushed. -/
theorem Kept.waits (h : w.Kept env) (hreading : ∀ payload, update ≠ .restoringBuckets payload) :
    Kept env { w with update := update, lastRead := lastRead } :=
  h.congr (fun _ => id) (fun _ _ => id) rfl (fun _ hdirty => ⟨hdirty, rfl⟩) (fun _ => ⟨rfl, rfl⟩)
    ⟨id, le_rfl⟩ (fun hsince _ => ⟨hsince, fun _ => ⟨rfl, fun hneeds => ⟨hneeds, le_rfl⟩⟩⟩)
    fun payload heq => absurd heq (hreading payload)

theorem Kept.takes (h : w.Kept env) (hordered : w.Ordered) {pass : SummaryPass} {item : Item}
    {remaining : List DocumentIndexEntry}
    (hupdate : w.update = .iterating pass remaining (some item))
    (hquiet : w.flush ≠ .idle → (w.store.applyDocument env item).entries = w.store.entries
      ∧ (w.store.applyDocument env item).dirtyBuckets = w.store.dirtyBuckets) :
    (w.take env pass item remaining).Kept env := by
  obtain ⟨store', hstore, htouched, -⟩ := w.store.applyDocument_spec env item
  obtain ⟨after, hiter, hincremental, hbackfill⟩ := (hordered.passing hupdate).after
  have hafter : after < item.cursor.changeSeq := (hiter.marks _ List.mem_cons_self).1
  have hdirty : (w.take env pass item remaining).store.dirtyBuckets
      = (w.store.applyDocument env item).dirtyBuckets := by
    cases pass <;> rfl
  have hconfig : (w.take env pass item remaining).store.configFingerprint
      = (w.store.applyDocument env item).configFingerprint := by
    cases pass <;> rfl
  have hneeds : (w.take env pass item remaining).store.needsBackfill
      = (w.store.applyDocument env item).needsBackfill := by
    cases pass <;> rfl
  have hrestored : (w.take env pass item remaining).store.restored = w.store.restored := by
    have happlied := htouched.restored.trans hstore.restored
    cases pass <;> exact happlied
  refine h.congr (fun _ => id) (fun _ _ hvouched => hvouched.mono fun hfalse => ?_) hrestored
    (fun docId hclean => ?_) ?_ ?_ (fun hfalse _ => ?_) nofun
  · exact (Bool.or_eq_false_iff.mp hfalse).1
  · change bucketIndexFor docId ∉ (w.take env pass item remaining).store.dirtyBuckets at hclean
    rw [hdirty] at hclean
    refine ⟨fun hmem => hclean (htouched.dirty _ (hstore.dirtyBuckets ▸ hmem)), ?_⟩
    by_cases heq : docId = item.docId
    · subst heq
      change (w.take env pass item remaining).store.entries.get? _ = _
      rw [entries_take, htouched.marked.resolve_right hclean, hstore.entries]
    · have hother : (w.take env pass item remaining).store.entries.get? docId
          = w.store.entries.get? docId := get?_take heq
      exact hother
  · intro hflush
    obtain ⟨hentries, hsame⟩ := hquiet hflush
    exact ⟨(entries_take pass item remaining).trans hentries, hdirty.trans hsame⟩
  · refine ⟨?_, ?_⟩
    · cases pass with
      | incremental => exact fun _ => rfl
      | backfill =>
        have hcursor := htouched.cursor.trans hstore.cursor
        exact fun hsome => (congrArg Option.isSome hcursor).trans hsome
    · rcases seqOf_take w env pass item remaining with hsame | ⟨rfl, hitem⟩
      · exact hsame.ge
      · exact ((hincremental rfl).symm.trans_lt hafter).le.trans hitem.ge
  · obtain ⟨hsince, hscheduled⟩ := Bool.or_eq_false_iff.mp hfalse
    refine ⟨hsince, fun hcursor => ?_⟩
    have hunscheduled : w.store.scheduled store' = false := by
      rw [scheduled, ← htouched.config, ← htouched.needsBackfill, ← htouched.backfillCursor]
      exact hscheduled
    obtain ⟨hsame, hsameNeeds, hsameBack⟩ := Reconfigured.knows hstore hunscheduled hcursor
    refine ⟨hconfig.trans ?_, fun hstill => ⟨?_, ?_⟩⟩
    · rw [configFingerprint, htouched.config, hsame]
      rfl
    · exact (hsameNeeds.symm.trans htouched.needsBackfill.symm).trans (hneeds.symm.trans hstill)
    · cases pass with
      | incremental =>
        exact (congrArg seqOf (htouched.backfillCursor.trans hsameBack)).ge
      | backfill =>
        cases hback : w.store.backfillCursor with
        | none => exact Nat.zero_le _
        | some c => exact ((hbackfill rfl c hback).symm.trans_lt hafter).le

/-! ## Restoring -/

/-- What a restore puts back of an empty summary. -/
theorem Kept.get?_restore (h : w.Kept env) (hempty : w.store.entries = ∅) (docId : JSString) :
    (w.store.restore payload w.records).entries.get? docId = w.records.find docId := by
  have hfind := h.filed.get?_restored docId
  rw [← hempty] at hfind
  rw [DocumentSummaryStore.restore]
  split_ifs <;> exact hfind

theorem restore_frame {store : DocumentSummaryStore} {payload : SummaryMetaPayload}
    {records : SummaryRecords} : (store.restore payload records).cursor = payload.cursor
      ∧ (store.restore payload records).config = store.config
      ∧ (store.restore payload records).restored = true
      ∧ (store.restore payload records).dirtyBuckets = store.dirtyBuckets := by
  rw [DocumentSummaryStore.restore]
  split_ifs <;> exact ⟨rfl, rfl, rfl, rfl⟩

/-- **The backfill of a summary that has been restored**: anew when the fingerprint is another, else
where the record has it. -/
theorem restore_backfill {store : DocumentSummaryStore} {payload : SummaryMetaPayload}
    (records : SummaryRecords) (hneeds : store.needsBackfill = false) :
    (payload.configFingerprint ≠ store.configFingerprint ∧
        (store.restore payload records).needsBackfill = true
        ∧ (store.restore payload records).backfillCursor = none) ∨
      payload.configFingerprint = store.configFingerprint ∧
        (store.restore payload records).needsBackfill = payload.needsBackfill
        ∧ (payload.needsBackfill = true →
          (store.restore payload records).backfillCursor = payload.backfillCursor) := by
  rw [DocumentSummaryStore.restore]
  by_cases hfingerprint : payload.configFingerprint = store.configFingerprint
  · rw [if_neg (not_not.mpr hfingerprint)]
    cases hpayload : payload.needsBackfill with
    | true => exact .inr ⟨hfingerprint, rfl, fun _ => rfl⟩
    | false => exact .inr ⟨hfingerprint, hneeds, (by intros; contradiction)⟩
  · rw [if_pos hfingerprint]
    exact .inl ⟨hfingerprint, rfl, rfl⟩

/-- **What is restored tracks the feed.** -/
theorem Kept.tracks_restore (h : w.Kept env) (hempty : w.store.entries = ∅)
    (hupdate : w.update = .restoringBuckets payload) :
    (w.restore payload).Tracks := by
  have hget : ∀ docId, (w.restore payload).store.entries.get? docId = w.records.find docId :=
    h.get?_restore hempty
  refine ⟨fun row hrow hsetup hle => ?_, fun {docId entry} hentry => ?_,
    nofun, nofun,
    fun hitem => absurd hitem (by simp [inHand, restore])⟩
  · rw [show (w.restore payload).store.cursor = payload.cursor from restore_frame.1] at hle
    rw [hget]
    exact (h.reading payload hupdate).1.matching row hrow hsetup hle
  · rw [hget] at hentry
    obtain ⟨hsetup, hrow⟩ := h.listed docId entry hentry
    exact ⟨(h.filed.find_eq_some_iff.mp hentry).2, hsetup, hrow⟩

/-- …and its fields are those of the fingerprint, or due. -/
theorem Kept.fielded_restore (h : w.Kept env) (hordered : w.Ordered) (hempty : w.Untouched)
    (hupdate : w.update = .restoringBuckets payload)
    (hwhole : payload.configFingerprint = w.store.configFingerprint → payload.cursor.isSome →
      w.scheduledSince = false) : (w.restore payload).Fielded env := by
  have hget : ∀ docId, (w.restore payload).store.entries.get? docId = w.records.find docId :=
    h.get?_restore hempty.entries
  have hcursor : (w.restore payload).store.cursor = payload.cursor := restore_frame.1
  refine ⟨fun row hrow hle => ?_, fun hbackfill => absurd hbackfill (by simp [backfilling, restore])⟩
  have hpos : 0 < row.changeSeq := (hordered.feed.below row hrow).1
  rw [hcursor] at hle
  have hsome : payload.cursor.isSome := by
    cases hpayload : payload.cursor with
    | none =>
      rw [hpayload] at hle
      exact absurd hpos (not_lt.mpr hle)
    | some c => rfl
  rcases restore_backfill w.records hempty.needsBackfill with
    ⟨-, hneeds, hback⟩ | ⟨hfingerprint, hneeds, hback⟩
  · refine .inr ⟨hneeds, ?_⟩
    change seqOf (w.store.restore payload w.records).backfillCursor < _
    rw [hback]
    exact hpos
  · by_cases hdue : payload.needsBackfill = true ∧ seqOf payload.backfillCursor < row.changeSeq
    · refine .inr ⟨hneeds.trans hdue.1, ?_⟩
      change seqOf (w.store.restore payload w.records).backfillCursor < _
      rw [hback hdue.1]
      exact hdue.2
    · refine .inl ?_
      rw [hget, configFingerprint,
        show (w.restore payload).store.config = w.store.config from restore_frame.2.1]
      have hfields := (h.reading payload hupdate).1.fields (hwhole hfingerprint hsome) row hrow hle
        fun hpayload => not_lt.mp fun hlt => hdue ⟨hpayload, hlt⟩
      rw [hfingerprint] at hfields
      exact hfields

theorem Kept.restores (h : w.Kept env) (hempty : w.Untouched)
    (hupdate : w.update = .restoringBuckets payload) : (w.restore payload).Kept env := by
  have hget : ∀ docId, (w.restore payload).store.entries.get? docId = w.records.find docId :=
    h.get?_restore hempty.entries
  have hcursor : (w.restore payload).store.cursor = payload.cursor := restore_frame.1
  have hdirty : (w.restore payload).store.dirtyBuckets = ∅ :=
    restore_frame.2.2.2.trans hempty.dirtyBuckets
  have hsince : ∀ {since}, (w.restore payload).scheduledSince = since → since = false →
      w.scheduledSince = false ∧ payload.configFingerprint = w.store.configFingerprint := by
    rintro since rfl hfalse
    simpa [restore] using hfalse
  refine ⟨h.filed, h.listed, fun _ docId _ => (hget docId).symm, fun byBucket position hflush => ?_,
    fun _ _ docId => (hget docId).symm,
    fun other hmem => (h.vouched other hmem).mono fun hfalse => (hsince rfl hfalse).1,
    fun _ other hmem => ?_, fun hfalse _ other hmem hsome => ?_,
    fun _ heq => absurd heq (by simp [restore])⟩
  · refine ⟨(h.writing byBucket position hflush).1.trans ?_, fun docId hmem => ?_⟩
    · funext bucket
      rw [DocumentSummaryStore.byBucket, DocumentSummaryStore.byBucket, hdirty, hempty.dirtyBuckets,
        if_neg (LinkedSet.notMem_empty bucket), if_neg (LinkedSet.notMem_empty bucket)]
    · rw [hdirty] at hmem
      exact absurd hmem (by simp)
  · rw [hcursor]
    cases hother : other.cursor with
    | none => exact ⟨(by intros; contradiction), Nat.zero_le _⟩
    | some c =>
      obtain rfl := (h.reading payload hupdate).2 other hmem (by simp [hother])
      rw [hother]
      exact ⟨id, le_rfl⟩
  · obtain rfl := (h.reading payload hupdate).2 other hmem hsome
    obtain ⟨-, hfingerprint⟩ := hsince rfl hfalse
    refine ⟨hfingerprint.trans ?_, fun hneeds => ?_⟩
    · rw [configFingerprint, configFingerprint,
        show (w.restore other).store.config = w.store.config from restore_frame.2.1]
    · rcases restore_backfill w.records hempty.needsBackfill with
        ⟨hne, -⟩ | ⟨-, hsame, hback⟩
      · exact absurd hfingerprint hne
      · have hother := hsame.symm.trans hneeds
        exact ⟨hother, (congrArg seqOf (hback hother)).ge⟩

/-! ## Flushing -/

/-- **A bucket is written.** -/
theorem Kept.writes (h : w.Kept env) (htracks : w.Tracks) (hfielded : w.Fielded env)
    (hordered : w.Ordered) (hbegun : w.Begun)
    {position bucket : ℕ} (hflush : w.flush = .writing byBucket position)
    (hbucket : w.store.dirtyBuckets.toList[position]? = some bucket) :
    Kept env
      { w with
        records := w.putBucket bucket (byBucket bucket)
        flush := .writing byBucket (position + 1) } := by
  obtain ⟨hgroup, hwritten⟩ := h.writing byBucket position hflush
  have hkeyed : Keyed w.store.entries := htracks.keyed_entries
  have hmem : bucket ∈ w.store.dirtyBuckets := List.mem_of_getElem? hbucket
  have hrestored : w.store.restored = true := by
    by_contra hfalse
    have hempty := hbegun.unrestored (Bool.eq_false_iff.mpr hfalse)
    rw [hempty.dirtyBuckets] at hmem
    exact LinkedSet.notMem_empty bucket hmem
  have hbyBucket : byBucket bucket = w.store.bucketEntries bucket := by
    rw [hgroup, DocumentSummaryStore.byBucket, if_pos hmem]
  rw [hbyBucket]
  have hfind := fun docId => find_putBucket (w := w) bucket hkeyed docId
  have hvouched : ∀ payload ∈ w.records.metaRecord, Vouched env w.feed
      (w.putBucket bucket (w.store.bucketEntries bucket)) w.scheduledSince payload := by
    intro payload hpayload
    have hold := h.vouched payload hpayload
    have hbehind := (h.behind hrestored payload hpayload).2
    refine ⟨fun row hrow hsetup hle => ?_, fun hsince row hrow hle hback => ?_⟩
    · rw [hfind]
      split
      · exact htracks.matching row hrow hsetup (hle.trans hbehind)
      · exact hold.matching row hrow hsetup hle
    · rw [hfind]
      split
      · have hsome : payload.cursor.isSome := by
          cases hcursor : payload.cursor with
          | none =>
            rw [hcursor] at hle
            exact absurd (hordered.feed.below row hrow).1 (not_lt.mpr hle)
          | some c => rfl
        obtain ⟨hfingerprint, hneeds⟩ := h.knows hsince hrestored payload hpayload hsome
        rw [hfingerprint]
        refine (hfielded.fields row hrow (hle.trans hbehind)).resolve_right fun hdue => ?_
        obtain ⟨hstill, hlt⟩ := hdue.beyond hordered hrow
        obtain ⟨hpayloadNeeds, hmoved⟩ := hneeds hstill
        exact absurd ((hback hpayloadNeeds).trans hmoved) (not_le.mpr hlt)
      · exact hold.fields hsince row hrow hle hback
  refine ⟨h.filed.putBucket hkeyed, fun docId entry hentry => ?_, fun _ docId hclean => ?_,
    fun other next hnext => ?_, (by intros; contradiction), hvouched, h.behind,
    h.knows, fun payload hupdate => ?_⟩
  · change (w.putBucket bucket (w.store.bucketEntries bucket)).find docId = some entry at hentry
    rw [hfind] at hentry
    split at hentry
    · exact (htracks.keyed hentry).2
    · exact h.listed docId entry hentry
  · change (w.putBucket bucket (w.store.bucketEntries bucket)).find docId = _
    rw [hfind]
    split
    · rfl
    · exact h.clean hrestored docId hclean
  · obtain ⟨rfl, rfl⟩ := FlushPhase.writing.inj hnext
    refine ⟨hgroup, fun docId hdocId => ?_⟩
    change (w.putBucket bucket (w.store.bucketEntries bucket)).find docId = _
    rw [hfind]
    split
    · rfl
    · rename_i hne
      rw [List.take_add_one, hbucket] at hdocId
      rcases List.mem_append.mp hdocId with hdocId | hdocId
      · exact hwritten docId hdocId
      · exact absurd (List.mem_singleton.mp hdocId) hne
  · have hphase := hbegun.phase
    rw [show w.update = .restoringBuckets payload from hupdate] at hphase
    cases hrestored.symm.trans hphase

/-- **The record of the cursors is written**, after all buckets. -/
theorem Kept.writesMeta (h : w.Kept env) (htracks : w.Tracks) (hfielded : w.Fielded env)
    (hordered : w.Ordered) (hbegun : w.Begun)
    {position : ℕ} (hflush : w.flush = .writing byBucket position)
    (hbucket : w.store.dirtyBuckets.toList[position]? = none) :
    Kept env
      { w with
        records := { w.records with metaRecord := some w.store.metaPayload }
        flush := .clearing
        scheduledSince := w.scheduledSince && !w.store.restored } := by
  obtain ⟨-, hwritten⟩ := h.writing byBucket position hflush
  have hall : w.store.restored = true → ∀ docId,
      w.records.find docId = w.store.entries.get? docId := by
    intro hrestored docId
    by_cases hdirty : bucketIndexFor docId ∈ w.store.dirtyBuckets
    · refine hwritten docId ?_
      rwa [List.take_of_length_le (List.getElem?_eq_none_iff.mp hbucket)]
    · exact h.clean hrestored docId hdirty
  have hvouched : Vouched env w.feed w.records (w.scheduledSince && !w.store.restored)
      w.store.metaPayload := by
    cases hrestored : w.store.restored with
    | false =>
      exact vouched_of_cursor hordered.feed (hbegun.unrestored hrestored).cursor
    | true =>
      refine ⟨fun row hrow hsetup hle => ?_, fun _ row hrow hle hback => ?_⟩
      · rw [hall hrestored]
        exact htracks.matching row hrow hsetup hle
      · rw [hall hrestored]
        refine (hfielded.fields row hrow hle).resolve_right fun hdue => ?_
        obtain ⟨hneeds, hlt⟩ := hdue.beyond hordered hrow
        exact absurd (hback hneeds) (not_le.mpr hlt)
  refine ⟨h.filed, h.listed, h.clean, nofun, fun _ => hall,
    fun payload hmem => ?_, fun _ payload hmem => ?_, fun _ _ payload hmem _ => ?_,
    fun payload hupdate => ⟨?_, fun other hmem hsome => ?_⟩⟩
  · obtain rfl := Option.some.inj hmem
    exact ⟨hvouched.matching, hvouched.fields⟩
  · obtain rfl := Option.some.inj hmem
    exact ⟨id, le_rfl⟩
  · obtain rfl := Option.some.inj hmem
    exact ⟨rfl, fun hneeds => ⟨hneeds, le_rfl⟩⟩
  · have hphase := hbegun.phase
    rw [show w.update = .restoringBuckets payload from hupdate] at hphase
    have hrestored : w.store.restored = false := hphase
    have hold := (h.reading payload hupdate).1
    exact ⟨hold.matching, fun hfalse => hold.fields (by simpa [hrestored] using hfalse)⟩
  · have hphase := hbegun.phase
    rw [show w.update = .restoringBuckets payload from hupdate] at hphase
    obtain rfl := Option.some.inj hmem
    rw [metaPayload, (hbegun.unrestored hphase).cursor] at hsome
    exact nomatch hsome

end SummaryWorld

end MindooDB
