import MindooDB.Summary.Tracked

/-!
# Summary/Fielded — what the cursor of the backfill promises

`Fielded`: behind the main cursor, the fields of an entry are those of the present fingerprint, or the
backfill has its row still ahead.  It holds for what a restart has put back as well as for what was
read since, so it speaks of rows and not of readings.
-/

namespace MindooDB

open DocumentSummaryStore

/-- The fields of an entry are those of its document under a fingerprint, if there is either. -/
def FieldsMatch (env : ExpressionRuntime) (entry : Option DocumentSummaryEntry)
    (doc : Option InternalDoc) (fingerprint : ResolvedSummaryConfig) : Prop :=
  ∀ e ∈ entry, ∀ d ∈ doc, SameFields e.fields (extractSummaryFields env d.data fingerprint)

namespace SummaryWorld

variable (env : ExpressionRuntime) (w : SummaryWorld)

/-- The backfill will come to a row. -/
def RowDue (row : DocumentIndexEntry) : Prop :=
  match w.backfilling with
  | some _ => row.cursor ∈ w.update.queue
  | none => w.store.needsBackfill = true ∧ seqOf w.store.backfillCursor < row.changeSeq

/-- **The fields behind the main cursor.** -/
structure Fielded : Prop where
  fields : ∀ row ∈ w.feed.index, row.changeSeq ≤ seqOf w.store.cursor →
    FieldsMatch env (w.store.entries.get? row.docId) (w.feed.documents row.docId)
      w.store.configFingerprint ∨ w.RowDue row
  unread : w.backfilling.isSome → w.store.backfillCursor = none → ∀ row ∈ w.feed.index,
    row.changeSeq ≤ seqOf w.store.cursor → w.RowDue row

variable {env w} {w' : SummaryWorld}

theorem fieldsMatch_none {doc : Option InternalDoc} {fingerprint : ResolvedSummaryConfig} :
    FieldsMatch env none doc fingerprint :=
  nofun

/-- Behind no cursor there is nothing to say. -/
theorem fielded_of_cursor (hordered : w.Ordered) (hcursor : w.store.cursor = none) :
    w.Fielded env := by
  have hnone : ∀ row ∈ w.feed.index, ¬row.changeSeq ≤ seqOf w.store.cursor := by
    intro row hrow
    rw [hcursor]
    exact not_le.mpr (hordered.feed.below row hrow).1
  exact ⟨fun row hrow hle => absurd hle (hnone row hrow),
    fun _ _ row hrow hle => absurd hle (hnone row hrow)⟩

variable {row : DocumentIndexEntry} {store : DocumentSummaryStore}
  {remaining : List DocumentIndexEntry}

/-- A move that leaves what is still read. -/
theorem RowDue.of_same (h : w.RowDue row) (hbackfilling : w'.backfilling = w.backfilling)
    (hqueue : w.backfilling.isSome → row.cursor ∈ w.update.queue → row.cursor ∈ w'.update.queue)
    (hneeds : w.store.needsBackfill = true → w'.store.needsBackfill = true)
    (hcursor : w.backfilling = none → w'.store.backfillCursor = w.store.backfillCursor) :
    w'.RowDue row := by
  rw [RowDue] at h ⊢
  rw [hbackfilling]
  cases hrows : w.backfilling with
  | none =>
    rw [hrows] at h
    exact ⟨hneeds h.1, hcursor hrows ▸ h.2⟩
  | some remaining =>
    rw [hrows] at h
    exact hqueue (by simp [hrows]) h

variable {lastRead : JSString → Option InternalDoc} {pass : SummaryPass}

section

variable (h : w.Fielded env)

include h

theorem Fielded.bumps (hordered : w.Ordered) {feed : ChangeFeed}
    (hbumps : ChangeFeed.Bumps w.feed feed row) (hstore : w.store.Purged store row.docId) :
    Fielded env { w with feed := feed, store := store, lastRead := lastRead } := by
  have htouched := hstore.touched
  have hbehind : ∀ other ∈ feed.index, other.changeSeq ≤ seqOf store.cursor →
      other ∈ w.feed.index ∧ other.docId ≠ row.docId
        ∧ other.changeSeq ≤ seqOf w.store.cursor := by
    intro other hother hle
    rw [htouched.cursor] at hle
    rcases hbumps.mem_index.mp hother with rfl | ⟨hmem, hne⟩
    · rw [hbumps.changeSeq] at hle
      exact absurd hle (not_le.mpr (hordered.seqOf_lt hordered.cursor))
    · exact ⟨hmem, hne, hle⟩
  have hdue : ∀ {other}, w.RowDue other →
      RowDue { w with feed := feed, store := store, lastRead := lastRead } other := fun hdue =>
    hdue.of_same rfl (fun _ => id) (fun hneeds => htouched.needsBackfill.trans hneeds)
      fun _ => htouched.backfillCursor
  refine ⟨fun other hother hle => ?_, fun hbackfill hnone other hother hle => ?_⟩
  · obtain ⟨hmem, hne, hle⟩ := hbehind other hother hle
    have hold := (h.fields other hmem hle).imp_right hdue
    rw [← htouched.others _ hne, ← hbumps.documents _ hne, configFingerprint,
      ← htouched.config] at hold
    exact hold
  · obtain ⟨hmem, -, hle⟩ := hbehind other hother hle
    exact hdue (h.unread hbackfill (htouched.backfillCursor.symm.trans hnone) other hmem hle)

theorem Fielded.scrubs {docId : JSString} :
    Fielded env { w with store := w.store.removeDocument docId, lastRead := lastRead } := by
  obtain ⟨htouched, hnone⟩ := touched_removeDocument w.store docId
  have hdue : ∀ {row}, w.RowDue row →
      RowDue { w with store := w.store.removeDocument docId, lastRead := lastRead } row :=
    fun hdue => hdue.of_same rfl (fun _ => id) (fun hneeds => htouched.needsBackfill.trans hneeds)
      fun _ => htouched.backfillCursor
  refine ⟨fun row hrow hle => ?_, fun hbackfill hcursor row hrow hle =>
    hdue (h.unread hbackfill (htouched.backfillCursor.symm.trans hcursor) row hrow
      (htouched.cursor ▸ hle))⟩
  have hold := (h.fields row hrow (htouched.cursor ▸ hle)).imp_right hdue
  by_cases heq : row.docId = docId
  · refine .inl ?_
    rw [heq, hnone]
    exact fieldsMatch_none
  · rw [← htouched.others _ heq, configFingerprint, ← htouched.config] at hold
    exact hold

theorem Fielded.configures (hordered : w.Ordered) {update : UpdatePhase}
    {configLoading scheduledSince : Bool} (hstore : w.store.Reconfigured store)
    (hphase : update = w.update ∨ w.update.Outside ∧ w.Fits update)
    (hspares : w.midBackfill = true → store.config = w.store.config) :
    Fielded env
      { w with
        store := store
        update := update
        configLoading := configLoading
        scheduledSince := scheduledSince } := by
  have hbackfilling : backfilling { w with store := store, update := update } = w.backfilling :=
    backfilling_configured store hphase
  have hqueue : ∀ {c}, w.backfilling.isSome → c ∈ w.update.queue → c ∈ update.queue := by
    intro c hsome hc
    rcases hphase with rfl | ⟨hbefore, -⟩
    · exact hc
    · rw [backfilling_of_outside hbefore] at hsome
      exact nomatch hsome
  rcases hstore.outcome with ⟨hconfig, hneeds, hnone, -⟩ | ⟨hneeds, hcursor, hsame⟩
  · have hdue : ∀ row ∈ w.feed.index, row.changeSeq ≤ seqOf store.cursor →
        RowDue { w with store := store, update := update } row := by
      intro row hrow hle
      rw [RowDue, hbackfilling]
      cases hrows : w.backfilling with
      | none =>
        refine ⟨hneeds, ?_⟩
        change seqOf store.backfillCursor < _
        rw [hnone]
        exact (hordered.feed.below row hrow).1
      | some remaining =>
        have hunread : w.store.backfillCursor = none :=
          backfillCursor_of_changed hconfig hspares (by simp [hrows])
        have hdue := h.unread (by simp [hrows]) hunread row hrow (hstore.cursor ▸ hle)
        rw [RowDue, hrows] at hdue
        exact hqueue (by simp [hrows]) hdue
    exact ⟨fun row hrow hle => .inr (hdue row hrow hle), fun _ _ row hrow hle => hdue row hrow hle⟩
  · have hdue : ∀ {row}, w.RowDue row → RowDue { w with store := store, update := update } row :=
      fun hdue => hdue.of_same hbackfilling hqueue (fun h => hneeds.trans h) fun _ => hcursor
    refine ⟨fun row hrow hle => ?_, fun hbackfill hnone row hrow hle =>
      hdue (h.unread (hbackfilling ▸ hbackfill) (hcursor.symm.trans hnone) row hrow
        (hstore.cursor ▸ hle))⟩
    rcases hsame with hconfig | ⟨hempty, -⟩
    · have hold := (h.fields row hrow (hstore.cursor ▸ hle)).imp_right hdue
      rw [← hstore.entries, configFingerprint, ← hconfig] at hold
      exact hold
    · refine .inl ?_
      change FieldsMatch env (store.entries.get? row.docId) _ _
      rw [hstore.entries, hempty]
      exact fieldsMatch_none

/-- The update goes from one phase in which no backfill is read to another. -/
theorem Fielded.waits {update : UpdatePhase} (hbefore : w.backfilling = none)
    (hafter : backfilling { w with update := update } = none)
    (hentries : store.entries = w.store.entries) (hconfig : store.config = w.store.config)
    (hcursor : store.cursor = w.store.cursor) (hneeds : store.needsBackfill = w.store.needsBackfill)
    (hbackfill : store.backfillCursor = w.store.backfillCursor) :
    Fielded env { w with store := store, update := update } := by
  refine ⟨fun row hrow hle => ?_, fun hsome => ?_⟩
  · have hdue : w.RowDue row → RowDue { w with store := store, update := update } row :=
      fun hdue => hdue.of_same (hafter.trans hbefore.symm)
        (fun hsome => absurd hsome (by simp [hbefore])) (fun h => hneeds.trans h) fun _ => hbackfill
    have hold := (h.fields row hrow (hcursor ▸ hle)).imp_right hdue
    rw [← hentries, configFingerprint, ← hconfig] at hold
    exact hold
  · rw [show backfilling { w with store := store, update := update } = none from hafter] at hsome
    exact nomatch hsome

theorem Fielded.begins_backfill (hordered : w.Ordered)
    (hupdate : w.update = .iterating .incremental [] none) :
    (w.beginPass env .backfill).Fielded env := by
  have hmem : ∀ row ∈ w.feed.index, seqOf w.store.backfillCursor < row.changeSeq →
      (w.beginPass env .backfill).RowDue row := by
    intro row hrow hafter
    refine List.mem_map_of_mem (hordered.mem_rowsSince hordered.backfillCursor hrow fun c hc => ?_)
    rw [show w.store.backfillCursor = some c from hc] at hafter
    exact hafter
  refine ⟨fun row hrow hle => (h.fields row hrow hle).imp_right fun hdue => hmem row hrow ?_,
    fun _ hnone row hrow _ => hmem row hrow ?_⟩
  · rw [RowDue, backfilling, hupdate] at hdue
    exact hdue.2
  · rw [show w.store.backfillCursor = none from hnone]
    exact (hordered.feed.below row hrow).1

theorem Fielded.fetches (hordered : w.Ordered)
    (hupdate : w.update = .iterating pass (row :: remaining) none) :
    (w.fetch pass row remaining).Fielded env := by
  have hqueue : w.update.queue = row.cursor :: remaining.map DocumentIndexEntry.cursor := by
    rw [hupdate]
    rfl
  have hdue : ∀ {pending lastRead}, (∀ other ∈ w.feed.index, other.cursor ∈ w.update.queue →
        other.cursor ∈ (UpdatePhase.iterating pass remaining pending).queue) →
      ∀ other ∈ w.feed.index, w.RowDue other → RowDue { w with
        update := .iterating pass remaining pending, lastRead := lastRead } other := by
    intro pending lastRead hkept other hother hdue
    rw [RowDue, backfilling, hupdate] at hdue
    rw [RowDue, backfilling]
    cases pass with
    | incremental => exact hdue
    | backfill => exact hkept other hother (hupdate ▸ hdue)
  have hmatches : ∀ {pending lastRead}, (∀ other ∈ w.feed.index, other.cursor ∈ w.update.queue →
        other.cursor ∈ (UpdatePhase.iterating pass remaining pending).queue) →
      Fielded env { w with
        update := .iterating pass remaining pending, lastRead := lastRead } := fun hkept =>
    ⟨fun other hother hle => (h.fields other hother hle).imp_right (hdue hkept other hother),
      fun hbackfill hnone other hother hle => hdue hkept other hother
        (h.unread (backfilling_of_fetch hupdate hbackfill) hnone other hother hle)⟩
  rw [fetch]
  cases hread : w.feed.read row with
  | none =>
    have hgone := hordered.feed.gone_of_read (hordered.passing hupdate).unmoved hread
    refine hmatches fun other hother hmem => ?_
    rw [hqueue] at hmem
    exact (List.mem_cons.mp hmem).resolve_left (hgone other hother)
  | some doc =>
    refine hmatches fun other _ hmem => ?_
    rw [hqueue] at hmem
    exact hmem

end

/-- **The entry that is written has the fields of the fingerprint.** -/
theorem fieldsMatch_applyDocument {item : Item} {doc : Option InternalDoc}
    (hdoc : ∀ d ∈ doc, item.doc.isDeleted = false → d = item.doc) :
    FieldsMatch env ((w.store.applyDocument env item).entries.get? item.docId) doc
      (w.store.applyDocument env item).configFingerprint := by
  intro entry hentry d hd
  obtain ⟨store', -, -, hitem⟩ := w.store.applyDocument_spec env item
  have hlive : item.doc.isDeleted = false := by
    by_contra hdeleted
    have hdeleted : item.doc.isDeleted = true := Bool.eq_true_of_not_eq_false hdeleted
    by_cases hsetup : item.docId = DB_SETUP_DOC_ID
    · obtain ⟨-, -, -, hnone⟩ := applyDocument_setup w.store env hsetup
      exact nomatch hnone.symm.trans hentry
    · exact absurd ((applyDocument_deleted w.store env hsetup hdeleted).2.symm.trans
        hentry) (by simp)
  rw [hitem entry hentry, hdoc d hd hlive]
  exact extractSummaryFields_congr _ (computeSummaryConfigFingerprint_idem _).symm

theorem Fielded.takes (h : w.Fielded env) (htracks : w.Tracks) (hordered : w.Ordered)
    {item : Item} (hupdate : w.update = .iterating pass remaining (some item))
    (hspares : w.midBackfill = true →
      (w.store.applyDocument env item).config = w.store.config) :
    (w.take env pass item remaining).Fielded env := by
  obtain ⟨store', hstore, htouched, -⟩ := w.store.applyDocument_spec env item
  have hitemDocId : item.cursor.docId = item.docId := (hordered.passing hupdate).docId item rfl
  have hheld : w.inHand = some item := by rw [inHand, hupdate]
  have hqueue : w.update.queue = item.cursor :: remaining.map DocumentIndexEntry.cursor := by
    rw [hupdate]
    rfl
  have hconfig : (w.take env pass item remaining).store.configFingerprint
      = (w.store.applyDocument env item).configFingerprint := by
    cases pass <;> rfl
  -- What is due stays due, but for the document of the item.
  have hdue : ∀ row, row.cursor ≠ item.cursor → w.RowDue row →
      (pass = .incremental → (w.store.applyDocument env item).backfillCursor = w.store.backfillCursor
        ∧ (w.store.applyDocument env item).needsBackfill = w.store.needsBackfill) →
      (w.take env pass item remaining).RowDue row := by
    intro row hne hdue hsame
    rw [RowDue, backfilling, hupdate] at hdue
    cases pass with
    | incremental =>
      obtain ⟨hcursor, hneeds⟩ := hsame rfl
      exact ⟨hneeds.trans hdue.1, (congrArg (fun c => seqOf c < row.changeSeq) hcursor).mpr hdue.2⟩
    | backfill => exact (List.mem_cons.mp hdue).resolve_left hne
  refine ⟨fun row hrow hle => ?_, fun hbackfill hnone => ?_⟩
  · rcases htracks.passed_take hordered hupdate hrow hle with heq | ⟨hne, hold⟩
    · refine .inl ?_
      have hdocId : row.docId = item.docId :=
        (congrArg ProcessChangesCursor.docId heq).trans hitemDocId
      rw [hconfig, entries_take, hdocId]
      refine fieldsMatch_applyDocument fun d hd hlive => ?_
      have hread := htracks.held hheld row hrow heq
      by_cases hrowLive : row.Live
      · rw [hrowLive.read, hdocId] at hread
        exact Option.some.inj ((show w.feed.documents item.docId = some d from hd).symm.trans hread)
      · rw [ChangeFeed.read_of_not_live hrowLive] at hread
        rw [← Option.some.inj hread] at hlive
        exact absurd hlive (by simp [DocumentIndexEntry.tombstone])
    · have hcursorNe : row.cursor ≠ item.cursor := fun heq =>
        hne ((congrArg ProcessChangesCursor.docId heq).trans hitemDocId)
      rw [get?_take hne, hconfig, configFingerprint, htouched.config]
      rcases hstore.outcome with ⟨hchanged, hneeds, hnone, -⟩ | ⟨hneeds, hcursor, hsame⟩
      · refine .inr ?_
        cases pass with
        | incremental =>
          refine ⟨htouched.needsBackfill.trans hneeds, ?_⟩
          change seqOf (w.store.applyDocument env item).backfillCursor < _
          rw [htouched.backfillCursor, hnone]
          exact (hordered.feed.below row hrow).1
        | backfill =>
          have hunread : w.store.backfillCursor = none := by
            by_contra hsome
            refine hchanged (htouched.config.symm.trans (hspares ?_))
            rw [midBackfill, backfilling, hupdate, Option.isSome_iff_ne_none.mpr hsome]
            rfl
          refine hdue row hcursorNe (h.unread ?_ hunread row hrow hold) fun heq => ?_
          · rw [backfilling, hupdate]
            rfl
          · cases heq
      · rcases hsame with hsame | ⟨hempty, -⟩
        · rw [hsame]
          exact (h.fields row hrow hold).imp_right fun hold => hdue row hcursorNe hold fun _ =>
            ⟨htouched.backfillCursor.trans hcursor, htouched.needsBackfill.trans hneeds⟩
        · refine .inl ?_
          rw [hempty]
          exact fieldsMatch_none
  · cases pass with
    | incremental => exact absurd hbackfill (by simp [backfilling, take])
    | backfill => exact absurd hnone (by simp [take, moveCursor])

theorem Fielded.stops (h : w.Fielded env) (hordered : w.Ordered)
    (hupdate : w.update = .iterating pass remaining none) :
    Fielded env { w with update := .idle } := by
  refine ⟨fun row hrow hle => (h.fields row hrow hle).imp_right fun hdue => ?_,
    fun hbackfill => absurd hbackfill (by simp [backfilling])⟩
  rw [RowDue, backfilling, hupdate] at hdue
  cases pass with
  | incremental => exact hdue
  | backfill =>
    have hpass := hordered.passing hupdate
    obtain ⟨after, hiter, -, hafter⟩ := hpass.after
    refine ⟨hpass.needsBackfill rfl, ?_⟩
    change seqOf w.store.backfillCursor < _
    cases hcursor : w.store.backfillCursor with
    | none => exact (hordered.feed.below row hrow).1
    | some c => exact (hafter rfl c hcursor).symm.trans_lt (hiter.marks _ hdue).1

theorem Fielded.completes (h : w.Fielded env)
    (hupdate : w.update = .iterating .backfill [] none) :
    (w.endPass env .backfill).Fielded env := by
  refine ⟨fun row hrow hle => .inl ((h.fields row hrow hle).resolve_right fun hdue => ?_),
    fun hbackfill => absurd hbackfill (by simp [backfilling, endPass])⟩
  rw [RowDue, backfilling, hupdate] at hdue
  cases hdue

/-- **Every move that spares a backfill keeps the fields**; what is restored has to be looked at. -/
theorem Fielded.move (h : w.Fielded env) (htracks : w.Tracks) (hordered : w.Ordered)
    (hmove : Move env w w')
    (hspares : w.midBackfill = true → w'.backfilling.isSome → w'.store.config = w.store.config)
    (hrestores : ∀ payload, w.update = .restoringBuckets payload → w'.update = .ready →
      (w.restore payload).Fielded env) :
    w'.Fielded env := by
  have hordered' := hordered.move hmove
  cases hmove with
  | bumps hbumps hstore => exact h.bumps hordered hbumps hstore
  | scrubs docId hgone => exact h.scrubs
  | configures hstore hphase =>
    exact h.configures hordered hstore hphase fun hmid => hspares hmid
      ((congrArg Option.isSome (backfilling_configured w.store hphase)).trans
        (Bool.and_eq_true_iff.mp hmid).1)
  | readsMeta hupdate | restoresNothing hupdate =>
    exact h.waits (by rw [backfilling, hupdate]) rfl rfl rfl rfl rfl rfl
  | restores hupdate => exact hrestores _ hupdate rfl
  | begins hpass =>
    rcases hpass with ⟨rfl, hupdate⟩ | ⟨rfl, hupdate, -⟩
    · exact h.waits (by rw [backfilling, hupdate]) rfl rfl rfl rfl rfl rfl
    · exact h.begins_backfill hordered hupdate
  | fetches hupdate => exact h.fetches hordered hupdate
  | @takes pass item remaining hupdate =>
    refine h.takes htracks hordered hupdate fun hmid => ?_
    obtain rfl := pass_of_midBackfill hupdate hmid
    exact hspares hmid rfl
  | stops hupdate => exact h.stops hordered hupdate
  | completes hupdate => exact h.completes hupdate
  | groups | writes | writesMeta | clears | fails => exact ⟨h.fields, h.unread⟩
  | restarts config => exact fielded_of_cursor hordered' rfl

end SummaryWorld

end MindooDB
