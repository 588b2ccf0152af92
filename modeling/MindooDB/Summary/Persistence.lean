import MindooDB.Summary.Kept

/-!
# Summary/Persistence — a summary that starts again

`Persistent`: the summary tracks its feed, its fields are those of the fingerprint or due, and the
cache keeps it.  Steps that spare backfills, let no entry change while a flush is under way and put
back only what belongs together keep it (`Persistent.step`).  Then an update that nothing disturbs
ends with the entries of a summary that is built from scratch.
-/

namespace MindooDB

open DocumentSummaryStore

namespace SummaryWorld

variable (env : ExpressionRuntime) (w : SummaryWorld)

/-! ## The condition -/

/-- A step writes or removes an entry. -/
def marks : SummaryEvent → Bool
  | .write docId _ purged => purged && w.store.entries.has docId
  | .hide docId => w.store.entries.has docId
  | .advanceUpdate =>
    match w.inHand with
    | some item => (item.docId ≠ DB_SETUP_DOC_ID && !item.doc.isDeleted)
        || w.store.entries.has item.docId
    | none => false
  | _ => false

/-- What a restart puts back belongs together: no buckets without a record of the cursors, and a
record of the present fingerprint only if no backfill has been scheduled since it was written. -/
def restoresWhole : SummaryEvent → Bool
  | .advanceUpdate =>
    match w.update with
    | .restoring =>
      w.records.metaRecord.isSome || (persistedEntries w.records).isEmpty
    | .restoringBuckets payload =>
      payload.configFingerprint ≠ w.store.configFingerprint || payload.cursor.isNone
        || !w.scheduledSince
    | _ => true
  | _ => true

/-- **A step that persistence can bear.** -/
def KeepsRecords (event : SummaryEvent) : Prop :=
  w.SparesBackfill event ∧ (w.flush.isIdle = false → w.marks event = false)
    ∧ w.restoresWhole event = true

instance (event : SummaryEvent) : Decidable (w.KeepsRecords event) :=
  inferInstanceAs (Decidable (_ ∧ _))

/-! ## The invariant -/

/-- **What a summary keeps over restarts.** -/
structure Persistent : Prop where
  ordered : w.Ordered
  begun : w.Begun
  tracks : w.Tracks
  fielded : w.Fielded env
  kept : w.Kept env

variable {env w} {w' : SummaryWorld}

/-- A new store keeps what a cache vouches for. -/
theorem persistent_opened {feed : ChangeFeed} {records : SummaryRecords} {since : Bool}
    {config : Option SummaryConfig} (hfeed : feed.InOrder) (hnext : 0 < feed.nextChangeSeq)
    (hrecords : ∀ payload ∈ records.metaRecord,
      PayloadMarks feed payload ∧ Vouched env feed records since payload)
    (hfiled : Filed records) (hlisted : ∀ docId entry, records.find docId = some entry →
      docId ≠ DB_SETUP_DOC_ID ∧ ∃ row ∈ feed.index, row.docId = docId) :
    Persistent env (opened feed records since config) := by
  have hordered : Ordered (opened feed records since config) :=
    ordered_opened hfeed hnext fun payload hmem => (hrecords payload hmem).1
  exact ⟨hordered, begun_opened, tracks_of_empty hordered rfl rfl trivial,
    fielded_of_cursor hordered rfl, kept_opened hfiled hlisted fun payload hmem =>
      (hrecords payload hmem).2⟩

/-- …and so one of an empty cache. -/
theorem persistent_fromScratch {feed : ChangeFeed} (hfeed : feed.InOrder)
    (hnext : 0 < feed.nextChangeSeq) (config : Option SummaryConfig) :
    Persistent env (opened feed {} false config) :=
  persistent_opened hfeed hnext (fun _ h => by cases h) (fun _ _ h => by cases h)
    fun _ _ h => by cases h

theorem Kept.move (h : w.Kept env) (hp : Persistent env w) (hmove : Move env w w')
    (hquiet : w.flush ≠ .idle → w'.flush = w.flush → w'.store.restored = w.store.restored →
      w'.store.entries = w.store.entries ∧ w'.store.dirtyBuckets = w.store.dirtyBuckets)
    (hnothing : w.update = .restoring → w'.update = .ready → w.records.metaRecord = none →
      ∀ docId, w.records.find docId = none) : w'.Kept env := by
  cases hmove with
  | bumps hbumps hstore =>
    exact h.bumps hp.ordered hbumps hstore.touched fun hflush =>
      hquiet hflush rfl hstore.touched.restored
  | scrubs docId hgone =>
    have htouched := (touched_removeDocument w.store docId).1
    exact h.touched htouched (fun hflush => hquiet hflush rfl htouched.restored) (fun _ => id)
      fun _ _ => id
  | configures hstore hphase hsince => exact h.configures hstore hphase hsince
  | @readsMeta payload hupdate hmeta =>
    refine ⟨h.filed, h.listed, h.clean, h.writing, h.clearing, h.vouched, h.behind, h.knows,
      fun other heq => ?_⟩
    obtain rfl := UpdatePhase.restoringBuckets.inj heq
    exact ⟨h.vouched payload hmeta, fun other hother _ =>
      Option.some.inj ((show w.records.metaRecord = some other from hother).symm.trans hmeta)⟩
  | restoresNothing hupdate hmeta =>
    have hphase := hp.begun.phase
    rw [hupdate] at hphase
    have hempty := hp.begun.unrestored hphase
    have hnone := hnothing hupdate rfl hmeta
    have hsame : ∀ docId, w.records.find docId = w.store.entries.get? docId := by
      intro docId
      rw [hnone docId, hempty.entries]
      rfl
    refine ⟨h.filed, h.listed, fun _ docId _ => hsame docId, h.writing, fun _ _ => hsame, h.vouched,
      fun _ payload hmem => ?_, fun _ _ payload hmem => ?_, (by intros; contradiction)⟩
    · rw [show w.records.metaRecord = some payload from hmem] at hmeta
      cases hmeta
    · rw [show w.records.metaRecord = some payload from hmem] at hmeta
      cases hmeta
  | restores hupdate =>
    have hphase := hp.begun.phase
    rw [hupdate] at hphase
    exact h.restores (hp.begun.unrestored hphase) hupdate
  | begins => exact h.waits fun _ => by simp
  | fetches hupdate =>
    rw [fetch]
    split
    · exact h.waits fun _ => by simp
    · exact h.waits fun _ => by simp
  | @takes pass item remaining hupdate =>
    refine h.takes hp.ordered hupdate fun hflush => ?_
    have hrestored : (w.take env pass item remaining).store.restored = w.store.restored := by
      have happlied := restored_applyDocument env w.store item
      cases pass <;> exact happlied
    have hsame := hquiet hflush rfl hrestored
    cases pass <;> exact hsame
  | stops => exact h.waits fun _ => by simp
  | completes hupdate =>
    refine h.congr (fun _ => id) (fun _ _ => id) rfl (fun _ hdirty => ⟨hdirty, rfl⟩)
      (fun _ => ⟨rfl, rfl⟩) ⟨id, le_rfl⟩ (fun hsince _ => ⟨hsince, fun _ => ⟨rfl, ?_⟩⟩)
      (by intros; contradiction)
    intros
    contradiction
  | groups hflush =>
    refine ⟨h.filed, h.listed, h.clean, fun byBucket position hnext => ?_,
      (by intros; contradiction), h.vouched, h.behind, h.knows, h.reading⟩
    obtain ⟨rfl, rfl⟩ := FlushPhase.writing.inj hnext
    exact ⟨rfl, (by intros; contradiction)⟩
  | writes hflush hbucket =>
    exact h.writes hp.tracks hp.fielded hp.ordered hp.begun hflush hbucket
  | writesMeta hflush hbucket =>
    exact h.writesMeta hp.tracks hp.fielded hp.ordered hp.begun hflush hbucket
  | clears hflush =>
    exact ⟨h.filed, h.listed, fun hrestored docId _ => h.clearing hflush hrestored docId,
      (by intros; contradiction), (by intros; contradiction), h.vouched,
      h.behind, h.knows, h.reading⟩
  | fails =>
    exact ⟨h.filed, h.listed, h.clean, (by intros; contradiction),
      (by intros; contradiction), h.vouched, h.behind, h.knows, h.reading⟩
  | restarts config => exact kept_opened h.filed h.listed h.vouched

theorem Persistent.move (h : Persistent env w) (hmove : Move env w w')
    (hspares : w.midBackfill = true → w'.backfilling.isSome → w'.store.config = w.store.config)
    (hquiet : w.flush ≠ .idle → w'.flush = w.flush → w'.store.restored = w.store.restored →
      w'.store.entries = w.store.entries ∧ w'.store.dirtyBuckets = w.store.dirtyBuckets)
    (hnothing : w.update = .restoring → w'.update = .ready → w.records.metaRecord = none →
      ∀ docId, w.records.find docId = none)
    (hwhole : ∀ payload, w.update = .restoringBuckets payload → w'.update = .ready →
      payload.configFingerprint = w.store.configFingerprint → payload.cursor.isSome →
        w.scheduledSince = false) : Persistent env w' := by
  have hempty : ∀ payload, w.update = .restoringBuckets payload → w.Untouched := by
    intro payload hupdate
    have hphase := h.begun.phase
    rw [hupdate] at hphase
    exact h.begun.unrestored hphase
  exact ⟨h.ordered.move hmove, h.begun.move hmove,
    h.tracks.move h.ordered hmove fun payload hupdate =>
      h.kept.tracks_restore (hempty payload hupdate).entries hupdate,
    h.fielded.move h.tracks h.ordered hmove hspares fun payload hupdate hready =>
      h.kept.fielded_restore h.ordered (hempty payload hupdate) hupdate
        (hwhole payload hupdate hready),
    h.kept.move h hmove hquiet hnothing⟩

/-! ### What the condition gives -/

theorem removeDocument_of_has {store : DocumentSummaryStore} {docId : JSString}
    (h : store.entries.has docId = false) : store.removeDocument docId = store := by
  rw [removeDocument, if_neg (by simp [h])]

variable (env) in
/-- An item that writes and removes nothing. -/
theorem applyDocument_of_quiet {store : DocumentSummaryStore} {item : Item}
    (h : ((item.docId ≠ DB_SETUP_DOC_ID && !item.doc.isDeleted) || store.entries.has item.docId)
      = false) : (store.applyDocument env item).entries = store.entries
      ∧ (store.applyDocument env item).dirtyBuckets = store.dirtyBuckets := by
  obtain ⟨hitem, hhas⟩ := Bool.or_eq_false_iff.mp h
  by_cases hsetup : item.docId = DB_SETUP_DOC_ID
  · have hstore : store.Reconfigured
        (if store.hasExplicitConfig then store else store.applyConfig item.config) := by
      split
      · exact Reconfigured.refl
      · exact reconfigured_applyConfig _ _
    rw [applyDocument, if_pos hsetup, removeDocument_of_has (by rw [hstore.entries]; exact hhas)]
    exact ⟨hstore.entries, hstore.dirtyBuckets⟩
  · have hdeleted : item.doc.isDeleted = true := by simpa [hsetup] using hitem
    rw [applyDocument, if_neg hsetup, if_pos hdeleted, removeDocument_of_has hhas]
    exact ⟨rfl, rfl⟩

theorem contents_of_store {store store' : DocumentSummaryStore} (h : store' = store) :
    store'.entries = store.entries ∧ store'.dirtyBuckets = store.dirtyBuckets :=
  h ▸ ⟨rfl, rfl⟩

theorem store_endPass : (w.endPass env .incremental).store = w.store := by
  rw [endPass]
  split <;> rfl

variable {event : SummaryEvent}

/-- A step without a mark leaves the entries and the marks, unless it flushes or restores. -/
theorem entries_step (hbegun : w.Begun) (hmarks : w.marks event = false) (hflush : w.flush ≠ .idle)
    (hsame : (w.step env event).flush = w.flush)
    (hrestored : (w.step env event).store.restored = w.store.restored) :
    (w.step env event).store.entries = w.store.entries
      ∧ (w.step env event).store.dirtyBuckets = w.store.dirtyBuckets := by
  cases event with
  | write docId doc purged =>
    cases purged with
    | false => exact ⟨rfl, rfl⟩
    | true =>
      change (w.store.removeDocument docId).entries = _ ∧ (w.store.removeDocument docId).dirtyBuckets = _
      rw [removeDocument_of_has hmarks]
      exact ⟨rfl, rfl⟩
  | hide docId =>
    change (w.store.removeDocument docId).entries = _ ∧ (w.store.removeDocument docId).dirtyBuckets = _
    rw [removeDocument_of_has hmarks]
    exact ⟨rfl, rfl⟩
  | setConfig config =>
    have hstore := reconfigured_setConfig w.store config
    exact ⟨hstore.entries, hstore.dirtyBuckets⟩
  | ensureConfigLoaded => exact ⟨rfl, rfl⟩
  | configLoaded =>
    have hstore := reconfigured_seedConfig w.store w.feed
    change w.configLoaded.store.entries = _ ∧ w.configLoaded.store.dirtyBuckets = _
    rw [configLoaded]
    split
    · exact ⟨hstore.entries, hstore.dirtyBuckets⟩
    · exact ⟨rfl, rfl⟩
  | startUpdate =>
    change w.startUpdate.store.entries = _ ∧ w.startUpdate.store.dirtyBuckets = _
    rw [startUpdate]
    split <;> exact ⟨rfl, rfl⟩
  | advanceUpdate =>
    change (w.advanceUpdate env).store.restored = _ at hrestored
    change (w.advanceUpdate env).store.entries = _ ∧ (w.advanceUpdate env).store.dirtyBuckets = _
    rw [marks] at hmarks
    have hphase := hbegun.phase
    cases hupdate : w.update with
    | idle =>
      rw [advanceUpdate, hupdate]
      exact ⟨rfl, rfl⟩
    | seeding =>
      have hstore := reconfigured_seedConfig w.store w.feed
      rw [advanceUpdate, hupdate]
      exact ⟨hstore.entries, hstore.dirtyBuckets⟩
    | restoring =>
      rw [advanceUpdate, hupdate]
      dsimp only
      split <;> exact ⟨rfl, rfl⟩
    | restoringBuckets payload =>
      rw [hupdate] at hphase
      rw [advanceUpdate, hupdate] at hrestored
      have htrue : (w.restore payload).store.restored = true := restore_frame.2.2.1
      cases (htrue.symm.trans hrestored).trans hphase
    | ready =>
      rw [advanceUpdate, hupdate]
      exact ⟨rfl, rfl⟩
    | iterating pass remaining pending =>
      rw [inHand, hupdate] at hmarks
      cases pending with
      | some item =>
        have hquiet := applyDocument_of_quiet env hmarks
        rw [advanceUpdate, hupdate]
        cases remaining <;> cases pass <;> exact hquiet
      | none =>
        rw [advanceUpdate, hupdate]
        cases remaining with
        | nil =>
          cases pass with
          | backfill => exact ⟨rfl, rfl⟩
          | incremental =>
            exact contents_of_store store_endPass
        | cons row remaining =>
          have hstore : (w.fetch pass row remaining).store = w.store := by
            rw [fetch]
            split <;> rfl
          exact contents_of_store hstore
  | stopUpdate =>
    change w.stopUpdate.store.entries = _ ∧ w.stopUpdate.store.dirtyBuckets = _
    rw [stopUpdate]
    split <;> exact ⟨rfl, rfl⟩
  | startFlush =>
    change w.startFlush.store.entries = _ ∧ w.startFlush.store.dirtyBuckets = _
    rw [startFlush]
    split
    · exact absurd ‹_› hflush
    · exact ⟨rfl, rfl⟩
  | advanceFlush =>
    change w.advanceFlush.flush = _ at hsame
    cases hphase : w.flush with
    | idle => exact absurd hphase hflush
    | writing byBucket position =>
      exact contents_of_store (store_advanceFlush hphase)
    | clearing =>
      rw [advanceFlush, hphase] at hsame
      cases hsame
  | failFlush | restart config => exact absurd (hsame.symm : w.flush = .idle) hflush

theorem update_advanceFlush : w.advanceFlush.update = w.update := by
  rw [advanceFlush]
  split
  · rfl
  · split <;> rfl
  · rfl

/-- An update that has begun stays where it is, is stopped, or goes on. -/
theorem update_step (hevent : event ≠ .advanceUpdate) (hidle : w.update ≠ .idle) :
    (w.step env event).update = w.update ∨ (w.step env event).update = .idle := by
  cases event with
  | advanceUpdate => exact absurd rfl hevent
  | configLoaded =>
    change w.configLoaded.update = _ ∨ w.configLoaded.update = _
    rw [configLoaded]
    split <;> exact .inl rfl
  | startUpdate =>
    change w.startUpdate.update = _ ∨ w.startUpdate.update = _
    rw [startUpdate]
    split
    · exact absurd ‹_› hidle
    · exact .inl rfl
  | stopUpdate =>
    change w.stopUpdate.update = _ ∨ w.stopUpdate.update = _
    rw [stopUpdate]
    split
    · exact .inr rfl
    · exact .inr rfl
    · exact .inl rfl
  | startFlush =>
    change w.startFlush.update = _ ∨ w.startFlush.update = _
    rw [startFlush]
    split
    · split
      · exact .inl update_advanceFlush
      · exact .inl rfl
    · exact .inl rfl
  | advanceFlush => exact .inl update_advanceFlush
  | restart => exact .inr rfl
  | _ => exact .inl rfl

theorem find_of_isEmpty {records : SummaryRecords} (hfiled : Filed records)
    (h : (persistedEntries records).isEmpty = true) (docId : JSString) :
    records.find docId = none := by
  refine Option.eq_none_iff_forall_ne_some.mpr fun entry hfind => ?_
  obtain ⟨-, rfl⟩ := hfiled.find_eq_some_iff.mp hfind
  have hmem := hfiled.mem_persistedEntries_iff.mpr hfind
  rw [List.isEmpty_iff.mp h] at hmem
  exact nomatch hmem

/-- **Every step that persistence can bear keeps it.** -/
theorem Persistent.step (h : Persistent env w)
    (hkeeps : w.KeepsRecords event) : Persistent env (w.step env event) := by
  obtain ⟨hspares, hquiet, hwhole⟩ := hkeeps
  have hconfig : w.midBackfill = true → (w.step env event).backfilling.isSome →
      (w.step env event).store.config = w.store.config := fun hmid hstill =>
    config_step (Bool.and_eq_true_iff.mp hmid).1 hstill (hspares hmid)
  have hbusy : w.flush ≠ .idle → w.flush.isIdle = false := fun hflush =>
    Bool.eq_false_iff.mpr fun hidle => hflush (FlushPhase.isIdle_iff.mp hidle)
  -- Only an update that goes on comes to its passes.
  have hadvances : ∀ {phase : UpdatePhase}, w.update = phase → phase ≠ .idle → phase ≠ .ready →
      (w.step env event).update = .ready → event = .advanceUpdate := by
    rintro phase rfl hidle hne hready
    by_contra hevent
    rcases update_step hevent hidle with hsame | hstopped
    · exact hne (hsame.symm.trans hready)
    · exact nomatch hstopped.symm.trans hready
  rcases step_moves env h.ordered.feed event with
    hsame | hmove | ⟨hflushes, w₁, hfirst, hupdate, hstore, hstep, hsecond⟩
  · exact hsame.symm ▸ h
  · refine h.move hmove hconfig (fun hflush hsame hrestored =>
      entries_step h.begun (hquiet (hbusy hflush)) hflush hsame hrestored)
      (fun hupdate hready hmeta => ?_) fun payload hupdate hready hfingerprint hcursor => ?_
    · obtain rfl := hadvances hupdate (by simp) (by simp) hready
      rw [restoresWhole, hupdate] at hwhole
      simp only [hmeta] at hwhole
      exact find_of_isEmpty h.kept.filed hwhole
    · obtain rfl := hadvances hupdate (by simp) (by simp) hready
      rw [restoresWhole, hupdate] at hwhole
      simpa [hfingerprint, Option.isSome_iff_ne_none.mp hcursor] using hwhole
  · have hnever : ∀ {phase : UpdatePhase}, w.update = phase → phase ≠ .idle → phase ≠ .ready →
        (w.step env event).update = .ready → False := fun hphase hidle hne hready =>
      nomatch hflushes.symm.trans (hadvances hphase hidle hne hready)
    have hfirst' : Persistent env w₁ := by
      refine h.move hfirst (fun _ _ => congrArg config hstore)
        (fun _ _ _ => contents_of_store hstore)
        (fun hphase hready => ?_) fun payload hphase hready => ?_
      · exact nomatch (hupdate.symm.trans hready).symm.trans hphase
      · exact nomatch (hupdate.symm.trans hready).symm.trans hphase
    have hsame : (w.step env event).store = w₁.store := hstep.trans hstore.symm
    exact hfirst'.move hsecond (fun _ _ => congrArg config hsame)
      (fun _ _ _ => contents_of_store hsame)
      (fun hphase hready => (hnever (hupdate.symm.trans hphase) (by simp) (by simp) hready).elim)
      fun payload hphase hready =>
        (hnever (hupdate.symm.trans hphase) (by simp) (by simp) hready).elim

end SummaryWorld

end MindooDB
