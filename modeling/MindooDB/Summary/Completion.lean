import MindooDB.Summary.Persistence

/-!
# Summary/Completion — an update that nothing disturbs

From a new store, an update that runs alone settles the configuration, restores what the cache has,
passes every row of the feed and finishes a pending backfill (`finished_completion`).  What it ends
with depends on the feed and the configuration alone (`sameSummary_of_finished`).
-/

namespace MindooDB

open ChangeFeed DocumentSummaryStore List Option UpdatePhase

namespace SummaryWorld

variable (env : ExpressionRuntime) (w : SummaryWorld)

/-- The steps of an update from its start to its end. -/
def completion : List SummaryEvent :=
  .startUpdate :: List.replicate (4 * w.feed.index.length + 6) .advanceUpdate

/-- `update`, run alone. -/
def updateToCompletion : SummaryWorld :=
  w.run env w.completion

/-- A new summary of the same database, without a cache. -/
def fromScratch (config : Option SummaryConfig) : SummaryWorld where
  feed := w.feed
  store := DocumentSummaryStore.new config

/-- The configuration that a new store comes to follow. -/
def settledConfig (feed : ChangeFeed) : Option SummaryConfig → Option SummaryConfig
  | some config => some config
  | none => (feed.getDocument DB_SETUP_DOC_ID).bind setupConfig

def settledFingerprint (feed : ChangeFeed) (config : Option SummaryConfig) :
    ResolvedSummaryConfig :=
  computeSummaryConfigFingerprint (resolveSummaryConfig ((settledConfig feed config).getD {}))

/-- **An update that runs alone**, from a new store on. -/
structure Alone (feed : ChangeFeed) (config : Option SummaryConfig) : Prop where
  sameFeed : w.feed = feed
  explicit : w.store.hasExplicitConfig = config.isSome
  settled : w.update ≠ .seeding →
    w.store.configFingerprint = settledFingerprint feed config
  unsettled : w.update = .seeding → config = none ∧ w.store.config = resolveSummaryConfig {}
  rows : ∀ pass remaining pending, w.update = .iterating pass remaining pending →
    (∀ row ∈ remaining, row ∈ w.feed.index)
      ∧ ∀ item ∈ pending, ∃ row ∈ w.feed.index, row.cursor = item.cursor
  whole : ∀ remaining pending, w.update = .iterating .incremental remaining pending →
    ∀ row ∈ w.feed.index, seqOf w.store.cursor < row.changeSeq → row.cursor ∈ w.update.queue
  passed : (w.backfilling.isSome ∨ w.update = .idle) → ∀ row ∈ w.feed.index,
    row.changeSeq ≤ seqOf w.store.cursor
  complete : w.update = .idle → w.store.needsBackfill = false

variable {env w} {feed : ChangeFeed} {config : Option SummaryConfig}

/-! ## The configuration -/

variable {store : DocumentSummaryStore} {remaining : List DocumentIndexEntry}

theorem fingerprint_applyConfig (config : Option SummaryConfig) :
    (store.applyConfig config).configFingerprint
      = computeSummaryConfigFingerprint (resolveSummaryConfig (config.getD {})) := by
  rw [applyConfig]
  cases hchanges : store.changes config with
  | true =>
    cases store.hasProgress <;> rfl
  | false =>
    have hsame : computeSummaryConfigFingerprint (resolveSummaryConfig (config.getD {}))
        = store.configFingerprint := by
      simpa [changes] using hchanges
    exact hsame.symm

theorem hasExplicitConfig_applyConfig (config : Option SummaryConfig) :
    (store.applyConfig config).hasExplicitConfig = store.hasExplicitConfig := by
  rw [applyConfig]
  split
  · cases store.hasProgress <;> rfl
  · rfl

/-- **Seeding settles the configuration.** -/
theorem fingerprint_seedConfig (hconfig : store.config = resolveSummaryConfig {}) :
    (store.seedConfig feed).configFingerprint = settledFingerprint feed none := by
  rw [seedConfig, settledFingerprint, settledConfig]
  split
  · rename_i config hsetup
    rw [hsetup]
    exact fingerprint_applyConfig (some config)
  · rename_i hsetup
    rw [hsetup, configFingerprint, hconfig]
    rfl

theorem hasExplicitConfig_seedConfig :
    (store.seedConfig feed).hasExplicitConfig = store.hasExplicitConfig := by
  rw [seedConfig]
  split
  · exact hasExplicitConfig_applyConfig _
  · rfl

/-- What a row of the setup document reads is what the store has followed. -/
theorem config_of_read (hfeed : feed.InOrder) {row : DocumentIndexEntry} (hrow : row ∈ feed.index)
    (hsetup : row.docId = DB_SETUP_DOC_ID) {item : Item} (hread : feed.read row = some item.doc) :
    item.config = settledConfig feed none := by
  have htells := hfeed.tells row hrow
  rw [settledConfig, getDocument, Item.config, ← hsetup]
  by_cases hlive : row.Live
  · rw [hlive.read] at hread
    rw [Tells, hlive.1] at htells
    obtain ⟨doc, hdoc, hdeleted⟩ := htells
    obtain rfl : doc = item.doc := some.inj (hdoc.symm.trans hread)
    have hfalse : item.doc.isDeleted = false := hdeleted.trans hlive.2
    rw [hdoc, if_neg (by simp [hfalse]), filter_some, if_pos (by simp [hfalse])]
    rfl
  · have hdeleted : item.doc.isDeleted = true := by
      rw [read_of_not_live hlive] at hread
      rw [← some.inj hread]
      rfl
    rw [if_pos hdeleted]
    cases haccess : row.accessState with
    | inaccessible =>
      rw [Tells, haccess] at htells
      rw [show feed.documents row.docId = none from htells]
      rfl
    | visible =>
      rw [Tells, haccess] at htells
      obtain ⟨doc, hdoc, hsame⟩ := htells
      have htrue : doc.isDeleted = true := by
        rw [hsame]
        by_contra hne
        exact hlive ⟨haccess, Bool.eq_false_iff.mpr hne⟩
      rw [hdoc, filter_some, if_neg (by simp [htrue])]
      rfl

variable {pass : SummaryPass}

/-- **The setup document changes nothing** once the configuration is settled. -/
theorem Alone.not_changes (h : w.Alone feed config) (hordered : w.Ordered) (htracks : w.Tracks)
    {item : Item} (hupdate : w.update = .iterating pass remaining (some item))
    (hsetup : item.docId = DB_SETUP_DOC_ID) (hexplicit : w.store.hasExplicitConfig = false) :
    w.store.changes item.config = false := by
  obtain rfl : config = none := by
    have hnone := h.explicit.symm.trans hexplicit
    exact not_isSome_iff_eq_none.mp (by simp [hnone])
  obtain ⟨row, hrow, hcursor⟩ := (h.rows pass remaining _ hupdate).2 item rfl
  have hheld : w.inHand = some item := by rw [inHand, hupdate]
  have hread := htracks.held hheld row hrow hcursor
  have hdocId : row.docId = DB_SETUP_DOC_ID :=
    ((congrArg ProcessChangesCursor.docId hcursor).trans
      ((hordered.passing hupdate).docId item rfl)).trans hsetup
  have hsettled := h.settled (by simp [hupdate])
  rw [changes, decide_eq_false_iff_not, not_not, hsettled,
    config_of_read hordered.feed hrow hdocId hread, h.sameFeed]
  rfl

/-! ## The run -/

/-- Outside the passes only the configuration is to be looked at. -/
theorem alone_of_outside (hfeed : w.feed = feed) (hexplicit : w.store.hasExplicitConfig = config.isSome)
    (hsettled : w.store.configFingerprint = settledFingerprint feed config)
    (houtside : w.update.Outside) (hseeding : w.update ≠ .seeding) (hidle : w.update ≠ .idle) :
    w.Alone feed config := by
  have hnever : ∀ {pass remaining pending}, w.update ≠ .iterating pass remaining pending := by
    rintro pass remaining pending heq
    exact (heq ▸ houtside : Outside (.iterating ..)).elim
  refine ⟨hfeed, hexplicit, fun _ => hsettled, fun heq => absurd heq hseeding,
    fun _ _ _ heq => absurd heq hnever, fun _ _ heq => absurd heq hnever, fun hpassed => ?_,
    fun heq => absurd heq hidle⟩
  rcases hpassed with hsome | heq
  · rw [backfilling_of_outside houtside] at hsome
    exact nomatch hsome
  · exact absurd heq hidle

theorem outside_afterSeeding : w.afterSeeding.Outside ∧ w.afterSeeding ≠ .seeding
    ∧ w.afterSeeding ≠ .idle := by
  rw [afterSeeding]
  split <;> exact ⟨trivial, by simp, by simp⟩

/-- A new store begins its update. -/
theorem alone_startUpdate (hidle : w.update = .idle)
    (hstore : w.store = DocumentSummaryStore.new config) :
    w.startUpdate.Alone w.feed config := by
  have hseeded : w.store.setupDocSeeded = false := by
    rw [hstore]
    rfl
  have hexplicit : w.store.hasExplicitConfig = config.isSome := by
    rw [hstore]
    rfl
  rw [startUpdate, hidle]
  cases config with
  | none =>
    have hmust : w.mustSeed = true := by
      rw [mustSeed, hseeded, hexplicit]
      rfl
    have hconfig : w.store.config = resolveSummaryConfig {} := by
      rw [hstore]
      rfl
    simp only [hmust, if_true]
    refine ⟨rfl, hexplicit, fun hne => absurd rfl hne, fun _ => ⟨rfl, hconfig⟩,
      (by intros; contradiction), (by intros; contradiction), fun hpassed => ?_,
      (by intros; contradiction)⟩
    rcases hpassed with hsome | heq
    · exact absurd hsome (by simp [backfilling])
    · cases heq
  | some config =>
    have hmust : w.mustSeed = false := by
      rw [mustSeed, hseeded, hexplicit]
      rfl
    have hconfig : w.store.config = resolveSummaryConfig config := by
      rw [hstore]
      rfl
    simp only [hmust]
    obtain ⟨houtside, hseeding, hnotIdle⟩ := outside_afterSeeding (w := w)
    refine alone_of_outside rfl hexplicit ?_ houtside hseeding hnotIdle
    rw [configFingerprint, hconfig]
    rfl

section

variable (h : w.Alone feed config)

include h

theorem Alone.begins_backfill (hupdate : w.update ≠ .seeding)
    (hpassed : ∀ row ∈ w.feed.index, row.changeSeq ≤ seqOf w.store.cursor) :
    (w.beginPass env .backfill).Alone feed config := by
  refine ⟨h.sameFeed, h.explicit, fun _ => h.settled hupdate, fun heq => (by cases heq),
    fun pass remaining pending heq => ?_, fun remaining pending heq => ?_,
    fun _ => hpassed, fun heq => absurd heq (by simp [beginPass])⟩
  rotate_left
  · exact absurd (iterating.inj heq).1 (by simp)
  obtain ⟨-, rfl, rfl⟩ := iterating.inj heq
  exact ⟨fun row hrow => mem_of_mem_drop hrow, (by intros; contradiction)⟩

theorem Alone.begins_incremental (hordered : w.Ordered) (hupdate : w.update ≠ .seeding) :
    (w.beginPass env .incremental).Alone feed config := by
  refine ⟨h.sameFeed, h.explicit, fun _ => h.settled hupdate, fun heq => (by cases heq),
    fun pass remaining pending heq => ?_, fun remaining pending heq row hrow hafter => ?_,
    fun hpassed => ?_, fun heq => absurd heq (by simp [beginPass])⟩
  · obtain ⟨-, rfl, rfl⟩ := iterating.inj heq
    exact ⟨fun row hrow => mem_of_mem_drop hrow, (by intros; contradiction)⟩
  · refine List.mem_map_of_mem (hordered.mem_rowsSince hordered.cursor hrow fun c hc => ?_)
    have hcursor : w.store.cursor = some c := hc
    rw [show (w.beginPass env .incremental).store.cursor = some c from hcursor] at hafter
    exact hafter
  · rcases hpassed with hsome | heq
    · exact absurd hsome (by simp [backfilling, beginPass])
    · exact absurd heq (by simp [beginPass])

theorem Alone.fetches (hordered : w.Ordered) {row : DocumentIndexEntry}
    (hupdate : w.update = .iterating pass (row :: remaining) none) :
    (w.fetch pass row remaining).Alone feed config := by
  obtain ⟨hrows, -⟩ := h.rows pass _ _ hupdate
  obtain ⟨doc, hread⟩ := hordered.feed.read_of_mem (hrows row mem_cons_self)
  rw [fetch, hread]
  refine ⟨h.sameFeed, h.explicit, fun _ => h.settled (by simp [hupdate]),
    (by intros; contradiction), fun pass' remaining' pending heq => ?_,
    fun remaining' pending heq other hother hafter => ?_, fun hpassed => ?_,
    (by intros; contradiction)⟩
  · obtain ⟨-, rfl, rfl⟩ := iterating.inj heq
    refine ⟨fun other hother => hrows other (mem_cons_of_mem _ hother), fun item hitem => ?_⟩
    obtain rfl := some.inj hitem
    exact ⟨row, hrows row mem_cons_self, rfl⟩
  · obtain ⟨rfl, rfl, rfl⟩ := iterating.inj heq
    have hmem := h.whole _ _ hupdate other hother hafter
    rw [hupdate] at hmem
    exact hmem
  · refine h.passed ?_
    rcases hpassed with hsome | heq
    · refine .inl ?_
      rw [backfilling, hupdate]
      cases pass with
      | backfill => rfl
      | incremental => exact absurd hsome (by simp [backfilling])
    · cases heq

theorem Alone.takes (hordered : w.Ordered) (htracks : w.Tracks) {item : Item}
    (hupdate : w.update = .iterating pass remaining (some item)) :
    (w.take env pass item remaining).Alone feed config := by
  have htouched : w.store.Touched (w.store.applyDocument env item) item.docId :=
    touched_applyDocument fun hsetup hexplicit =>
      h.not_changes hordered htracks hupdate hsetup hexplicit
  have hconfig : (w.take env pass item remaining).store.config = w.store.config := by
    have hsame := htouched.config
    cases pass <;> exact hsame
  have hexplicit : (w.take env pass item remaining).store.hasExplicitConfig
      = w.store.hasExplicitConfig := by
    have hsame := htouched.hasExplicitConfig
    cases pass <;> exact hsame
  obtain ⟨hrows, -⟩ := h.rows pass _ _ hupdate
  refine ⟨h.sameFeed, hexplicit.trans h.explicit, fun _ => ?_, fun heq => absurd heq (by simp [take]),
    fun pass' remaining' pending heq => ?_, fun remaining' pending heq row hrow hafter => ?_,
    fun hpassed row hrow => ?_, fun heq => absurd heq (by simp [take])⟩
  · rw [configFingerprint, hconfig]
    exact h.settled (by simp [hupdate])
  · obtain ⟨-, rfl, rfl⟩ := iterating.inj heq
    exact ⟨hrows, (by intros; contradiction)⟩
  · obtain ⟨rfl, rfl, rfl⟩ := iterating.inj heq
    obtain ⟨after, hiter, hincremental, -⟩ := (hordered.passing hupdate).after
    have hitem : item.cursor.changeSeq < row.changeSeq := hafter
    have hpassed : seqOf w.store.cursor < item.cursor.changeSeq :=
      (hincremental rfl).symm.trans_lt (hiter.marks _ mem_cons_self).1
    have hmem := h.whole _ _ hupdate row hrow (hpassed.trans hitem)
    rw [hupdate] at hmem
    refine (mem_cons.mp hmem).resolve_left fun heq => ?_
    exact absurd hitem (congrArg ProcessChangesCursor.changeSeq heq).le.not_gt
  · rcases hpassed with hsome | heq
    · cases pass with
      | incremental => exact absurd hsome (by simp [backfilling, take])
      | backfill =>
        have hcursor : (w.take env .backfill item remaining).store.cursor = w.store.cursor :=
          htouched.cursor
        rw [hcursor]
        exact h.passed (.inl (by rw [backfilling, hupdate]; rfl)) row hrow
    · exact absurd heq (by simp [take])

/-- **Every step of an update that runs alone.** -/
theorem Alone.advance (hp : Persistent env w) :
    (w.advanceUpdate env).Alone feed config := by
  rw [advanceUpdate]
  cases hupdate : w.update with
  | idle => exact h
  | seeding =>
    obtain ⟨rfl, hconfig⟩ := h.unsettled hupdate
    obtain ⟨houtside, hseeding, hidle⟩ := outside_afterSeeding (w := w)
    refine alone_of_outside h.sameFeed (hasExplicitConfig_seedConfig.trans h.explicit) ?_ houtside
      hseeding hidle
    rw [← h.sameFeed]
    exact fingerprint_seedConfig hconfig
  | restoring =>
    have hsettled := h.settled (by simp [hupdate])
    dsimp only
    split
    · exact alone_of_outside h.sameFeed h.explicit hsettled trivial (by simp) (by simp)
    · exact alone_of_outside h.sameFeed h.explicit hsettled trivial (by simp) (by simp)
  | restoringBuckets payload =>
    refine alone_of_outside h.sameFeed ?_ ?_ trivial (by simp [restore]) (by simp [restore])
    · change (w.store.restore payload w.records).hasExplicitConfig = _
      rw [← h.explicit, DocumentSummaryStore.restore]
      split_ifs <;> rfl
    · rw [configFingerprint,
        show (w.restore payload).store.config = w.store.config from restore_frame.2.1]
      exact h.settled (by simp [hupdate])
  | ready => exact h.begins_incremental hp.ordered (by simp [hupdate])
  | iterating pass remaining pending =>
    cases pending with
    | some item => cases remaining <;> exact h.takes hp.ordered hp.tracks hupdate
    | none =>
      cases remaining with
      | cons row remaining => exact h.fetches hp.ordered hupdate
      | nil =>
        cases pass with
        | backfill =>
          exact ⟨h.sameFeed, h.explicit, fun _ => h.settled (by simp [hupdate]),
            fun heq => absurd heq (by simp [endPass]),
            fun _ _ _ heq => absurd heq (by simp [endPass]),
            fun _ _ heq => absurd heq (by simp [endPass]),
            fun _ => h.passed (.inl (by rw [backfilling, hupdate]; rfl)), fun _ => rfl⟩
        | incremental =>
          have hpassed : ∀ row ∈ w.feed.index, row.changeSeq ≤ seqOf w.store.cursor := by
            intro row hrow
            by_contra hafter
            have hmem := h.whole _ _ hupdate row hrow (not_le.mp hafter)
            rw [hupdate] at hmem
            cases hmem
          change (w.endPass env .incremental).Alone feed config
          rw [endPass]
          cases hneeds : w.store.needsBackfill with
          | true =>
            rw [if_pos rfl]
            exact h.begins_backfill (by simp [hupdate]) hpassed
          | false =>
            rw [if_neg (by simp)]
            exact ⟨h.sameFeed, h.explicit, fun _ => h.settled (by simp [hupdate]),
              (by intros; contradiction), (by intros; contradiction),
              (by intros; contradiction), fun _ => hpassed, fun _ => hneeds⟩

end

/-! ## The end of the run -/

/-- How many steps an update has left, over a feed of some length. -/
def stepsLeft (length : ℕ) : UpdatePhase → ℕ
  | .idle => 0
  | .iterating .backfill remaining pending =>
    2 * remaining.length + (if pending.isSome then 1 else 0) + 1
  | .iterating .incremental remaining pending =>
    2 * remaining.length + (if pending.isSome then 1 else 0) + 1 + (2 * length + 1)
  | .ready => 4 * length + 3
  | .restoringBuckets _ => 4 * length + 4
  | .restoring => 4 * length + 5
  | .seeding => 4 * length + 6

variable (env) in
theorem length_rowsSince_le (cursor : Option ProcessChangesCursor) :
    (w.feed.rowsSince env.toRuntime cursor).length ≤ w.feed.index.length := by
  rw [rowsSince, length_drop]
  exact Nat.sub_le _ _

variable (env) in
/-- **Every step brings an update nearer to its end.** -/
theorem stepsLeft_advance (hidle : w.update ≠ .idle) :
    stepsLeft w.feed.index.length (w.advanceUpdate env).update
      < stepsLeft w.feed.index.length w.update := by
  rw [advanceUpdate]
  cases hupdate : w.update with
  | idle => exact absurd hupdate hidle
  | seeding =>
    change stepsLeft _ w.afterSeeding < _
    rw [afterSeeding]
    split <;> simp [stepsLeft]
  | restoring =>
    dsimp only
    split <;> simp [stepsLeft]
  | restoringBuckets payload => simp [restore, stepsLeft]
  | ready =>
    have hle := length_rowsSince_le (w := w) env w.store.cursor
    simp only [beginPass, passCursor, stepsLeft, isSome_none, Bool.false_eq_true, if_false]
    omega
  | iterating pass remaining pending =>
    cases pending with
    | some item =>
      cases remaining <;> cases pass <;> simp [take, stepsLeft]
    | none =>
      cases remaining with
      | cons row remaining =>
        change stepsLeft _ (w.fetch pass row remaining).update < _
        rw [fetch]
        split <;> cases pass <;> simp [stepsLeft] <;> omega
      | nil =>
        cases pass with
        | backfill => simp [endPass, stepsLeft]
        | incremental =>
          have hle := length_rowsSince_le (w := w) env w.store.backfillCursor
          change stepsLeft _ (w.endPass env .incremental).update < _
          rw [endPass]
          split
          · simp only [beginPass, passCursor, stepsLeft, isSome_none, Bool.false_eq_true,
              if_false, length_nil]
            omega
          · simp [stepsLeft]

/-- **An update that runs alone comes to its end**, keeping what a summary keeps. -/
theorem finished_of_steps {steps : ℕ} (hp : Persistent env w) (h : w.Alone feed config)
    (hkeeps : AllSteps env KeepsRecords w (List.replicate steps .advanceUpdate))
    (hsteps : stepsLeft w.feed.index.length w.update ≤ steps) :
    Persistent env (w.run env (List.replicate steps .advanceUpdate))
      ∧ (w.run env (List.replicate steps .advanceUpdate)).Alone feed config
      ∧ (w.run env (List.replicate steps .advanceUpdate)).update = .idle := by
  induction steps generalizing w with
  | zero =>
    refine ⟨hp, h, ?_⟩
    change w.update = .idle
    by_contra hidle
    exact absurd (stepsLeft_advance env hidle) (by omega)
  | succ steps ih =>
    obtain ⟨hfirst, hrest⟩ := hkeeps
    have h' : (w.advanceUpdate env).Alone feed config := h.advance hp
    refine ih (hp.step hfirst) h' hrest ?_
    change stepsLeft (w.advanceUpdate env).feed.index.length _ ≤ _
    rw [h'.sameFeed, ← h.sameFeed]
    by_cases hidle : w.update = .idle
    · have hsame : w.advanceUpdate env = w := by rw [advanceUpdate, hidle]
      change stepsLeft _ (w.advanceUpdate env).update ≤ _
      rw [hsame, hidle]
      exact Nat.zero_le _
    · have hlt := stepsLeft_advance env hidle
      change stepsLeft _ (w.advanceUpdate env).update ≤ _
      omega

/-! ## A summary without a cache -/

/-- The cache is empty and left alone. -/
structure Bare : Prop where
  records : w.records = {}
  flush : w.flush = .idle
  reads : ∀ payload, w.update ≠ .restoringBuckets payload

theorem records_advanceUpdate : (w.advanceUpdate env).records = w.records
    ∧ (w.advanceUpdate env).flush = w.flush := by
  rw [advanceUpdate]
  cases w.update with
  | restoring =>
    dsimp only
    split <;> exact ⟨rfl, rfl⟩
  | iterating pass remaining pending =>
    cases pending with
    | some item => cases remaining <;> exact ⟨rfl, rfl⟩
    | none =>
      cases remaining with
      | cons row remaining =>
        change (w.fetch pass row remaining).records = _ ∧ (w.fetch pass row remaining).flush = _
        rw [fetch]
        split <;> exact ⟨rfl, rfl⟩
      | nil =>
        cases pass with
        | backfill => exact ⟨rfl, rfl⟩
        | incremental =>
          change (w.endPass env .incremental).records = _ ∧ (w.endPass env .incremental).flush = _
          rw [endPass]
          split <;> exact ⟨rfl, rfl⟩
  | _ => exact ⟨rfl, rfl⟩

/-- Only a record of the cursors has the buckets read. -/
theorem metaRecord_of_restoringBuckets {payload : SummaryMetaPayload}
    (h : (w.advanceUpdate env).update = .restoringBuckets payload) :
    w.records.metaRecord = some payload := by
  rw [advanceUpdate] at h
  cases hupdate : w.update with
  | restoring =>
    rw [hupdate] at h
    dsimp only at h
    cases hmeta : w.records.metaRecord with
    | none =>
      rw [hmeta] at h
      cases h
    | some other =>
      rw [hmeta] at h
      rw [restoringBuckets.inj h]
  | seeding =>
    rw [hupdate] at h
    change w.afterSeeding = _ at h
    rw [afterSeeding] at h
    split at h <;> cases h
  | iterating pass remaining pending =>
    rw [hupdate] at h
    cases pending with
    | some item => cases remaining <;> exact absurd h (by simp [take])
    | none =>
      cases remaining with
      | cons row remaining =>
        change (w.fetch pass row remaining).update = _ at h
        rw [fetch] at h
        split at h <;> cases h
      | nil =>
        cases pass with
        | backfill => exact absurd h (by simp [endPass])
        | incremental =>
          change (w.endPass env .incremental).update = _ at h
          rw [endPass] at h
          split at h <;> exact absurd h (by simp [beginPass])
  | _ =>
    rw [hupdate] at h
    exact absurd h (by simp [hupdate, restore, beginPass])

theorem Bare.advance (h : w.Bare) : (w.advanceUpdate env).Bare := by
  refine ⟨records_advanceUpdate.1.trans h.records, records_advanceUpdate.2.trans h.flush,
    fun payload hupdate => ?_⟩
  have hmeta := metaRecord_of_restoringBuckets hupdate
  rw [h.records] at hmeta
  exact nomatch hmeta

theorem Bare.restoresWhole (h : w.Bare) : w.restoresWhole .advanceUpdate = true := by
  cases hupdate : w.update with
  | restoringBuckets payload => exact absurd hupdate (h.reads payload)
  | restoring =>
    have hempty : (persistedEntries {}).isEmpty = true := by
      rw [persistedEntries]
      simp
    rw [SummaryWorld.restoresWhole, hupdate, h.records]
    exact hempty
  | _ => rw [SummaryWorld.restoresWhole, hupdate]

theorem Alone.not_reconfigures (h : w.Alone feed config) (hp : Persistent env w) :
    w.reconfigures .advanceUpdate = false := by
  cases hupdate : w.update with
  | iterating pass remaining pending =>
    cases pending with
    | none => rw [reconfigures, hupdate]
    | some item =>
      rw [reconfigures, hupdate]
      by_cases hsetup : item.docId = DB_SETUP_DOC_ID
      · cases hexplicit : w.store.hasExplicitConfig with
        | true => simp
        | false => simp [h.not_changes hp.ordered hp.tracks hupdate hsetup hexplicit]
      · simp [hsetup]
  | _ => rw [reconfigures, hupdate]

/-- **Without a cache there is nothing that an update could break.** -/
theorem Bare.keepsRecords (h : w.Bare) (halone : w.Alone feed config) (hp : Persistent env w)
    (steps : ℕ) : AllSteps env KeepsRecords w (List.replicate steps .advanceUpdate) := by
  induction steps generalizing w with
  | zero => trivial
  | succ steps ih =>
    have hfirst : w.KeepsRecords .advanceUpdate :=
      ⟨fun _ => halone.not_reconfigures hp,
        fun hbusy => absurd (FlushPhase.isIdle_iff.mpr h.flush) (by simp [hbusy]), h.restoresWhole⟩
    exact ⟨hfirst, ih h.advance (halone.advance hp) (hp.step hfirst)⟩

/-- **A new store comes to the end of its update.** -/
theorem finished_completion (hp : Persistent env w) (hidle : w.update = .idle)
    (hstore : w.store = DocumentSummaryStore.new config)
    (hkeeps : AllSteps env KeepsRecords w w.completion) :
    Persistent env (w.updateToCompletion env)
      ∧ (w.updateToCompletion env).Alone w.feed config
      ∧ (w.updateToCompletion env).update = .idle := by
  obtain ⟨hfirst, hrest⟩ := hkeeps
  have halone := alone_startUpdate hidle hstore
  refine finished_of_steps (hp.step hfirst) halone hrest ?_
  change stepsLeft w.startUpdate.feed.index.length w.startUpdate.update ≤ _
  rw [halone.sameFeed, startUpdate, hidle]
  change stepsLeft _ (if w.mustSeed then .seeding else w.afterSeeding) ≤ _
  rw [afterSeeding]
  split_ifs
  · exact le_rfl
  · exact Nat.add_le_add_left (by decide) _
  · exact Nat.le_succ _

theorem keepsRecords_fromScratch (hp : Persistent env (w.fromScratch config)) :
    AllSteps env KeepsRecords (w.fromScratch config) (w.fromScratch config).completion := by
  have hfirst : (w.fromScratch config).KeepsRecords .startUpdate :=
    ⟨fun _ => rfl, fun _ => rfl, rfl⟩
  have hbare : (w.fromScratch config).startUpdate.Bare := by
    refine ⟨rfl, rfl, fun payload => ?_⟩
    change (if (w.fromScratch config).mustSeed then .seeding
      else (w.fromScratch config).afterSeeding) ≠ _
    split_ifs
    · simp
    · rw [afterSeeding]
      split <;> simp
  exact ⟨hfirst, hbare.keepsRecords (alone_startUpdate rfl rfl) (hp.step hfirst) _⟩

/-! ## Two summaries of one database -/

/-- Two entries of one document, with the same fields. -/
structure SameSummaryEntry (entry entry' : DocumentSummaryEntry) : Prop where
  docId : entry.docId = entry'.docId
  changeSeq : entry.changeSeq = entry'.changeSeq
  lastModified : entry.lastModified = entry'.lastModified
  decryptionKeyId : entry.decryptionKeyId = entry'.decryptionKeyId
  fields : SameFields entry.fields entry'.fields

/-- **Two summaries say the same.** -/
def SameSummary (w w' : SummaryWorld) : Prop :=
  ∀ docId, Option.Rel SameSummaryEntry (w.store.entries.get? docId) (w'.store.entries.get? docId)

/-- **What a finished update ends with** is settled by the feed and the configuration. -/
theorem sameSummary_of_finished (hp : Persistent env w) (hp' : Persistent env w')
    (h : w.Alone feed config) (h' : w'.Alone feed config) (hidle : w.update = .idle)
    (hidle' : w'.update = .idle) : w.SameSummary w' := by
  have hfields : ∀ {v : SummaryWorld}, Persistent env v → v.Alone feed config → v.update = .idle →
      ∀ row ∈ feed.index, FieldsMatch env (v.store.entries.get? row.docId)
        (feed.documents row.docId) (settledFingerprint feed config) := by
    intro v hv halone hfinished row hrow
    have hmem : row ∈ v.feed.index := halone.sameFeed.symm ▸ hrow
    have hfield := hv.fielded.fields row hmem (halone.passed (.inr hfinished) row hmem)
    rw [halone.sameFeed, halone.settled (by simp [hfinished])] at hfield
    refine hfield.resolve_right fun hdue => ?_
    rw [RowDue, backfilling, hfinished] at hdue
    cases hdue.1.symm.trans (halone.complete hfinished)
  have hmatching : ∀ {v : SummaryWorld}, Persistent env v → v.Alone feed config →
      v.update = .idle → ∀ row ∈ feed.index, row.docId ≠ DB_SETUP_DOC_ID →
        Matches feed row (v.store.entries.get? row.docId) := by
    intro v hv halone hfinished row hrow hsetup
    have hmem : row ∈ v.feed.index := halone.sameFeed.symm ▸ hrow
    have hmatch := hv.tracks.matching row hmem hsetup (halone.passed (.inr hfinished) row hmem)
    rwa [halone.sameFeed] at hmatch
  intro docId
  cases hget : w.store.entries.get? docId with
  | none =>
    cases hget' : w'.store.entries.get? docId with
    | none => exact .none
    | some entry' =>
      obtain ⟨-, hsetup, row, hrow, rfl⟩ := hp'.tracks.keyed hget'
      rw [h'.sameFeed] at hrow
      have hlost := hmatching hp h hidle row hrow hsetup
      have hlive := hmatching hp' h' hidle' row hrow hsetup
      rw [hget] at hlost
      rw [hget'] at hlive
      exact absurd hlive.1 hlost
  | some entry =>
    obtain ⟨hdocId, hsetup, row, hrow, rfl⟩ := hp.tracks.keyed hget
    rw [h.sameFeed] at hrow
    have hlive := hmatching hp h hidle row hrow hsetup
    have hlive' := hmatching hp' h' hidle' row hrow hsetup
    have hfield := hfields hp h hidle row hrow
    have hfield' := hfields hp' h' hidle' row hrow
    rw [hget] at hlive hfield
    cases hget' : w'.store.entries.get? row.docId with
    | none =>
      rw [hget'] at hlive'
      exact absurd hlive.1 hlive'
    | some entry' =>
      rw [hget'] at hlive' hfield'
      obtain ⟨-, -, hseq, doc, hdoc, hmodified, hkey⟩ := hlive
      obtain ⟨-, hdocId', hseq', doc', hdoc', hmodified', hkey'⟩ := hlive'
      obtain rfl : doc = doc' := some.inj (hdoc.symm.trans hdoc')
      have hsame := hfield entry rfl doc hdoc
      have hsame' := hfield' entry' rfl doc hdoc
      exact .some ⟨hdocId.trans hdocId'.symm, hseq.trans hseq'.symm,
        hmodified.trans hmodified'.symm, hkey.trans hkey'.symm,
        fun key => (hsame key).trans (hsame' key).symm⟩

end SummaryWorld

end MindooDB
