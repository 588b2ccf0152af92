import MindooDB.Summary.Updates

/-!
# Summary/Ordered — the passes of an update and the feed

`Ordered`: the feed is in order, the cursors stand at rows of it, and the queue of a pass under way
is what is still to come of an iteration since its cursor.  Every step keeps it
(`Ordered.step`).
-/

namespace MindooDB

open DocumentSummaryStore

/-- The positions that a pass still goes through, with the one in hand. -/
def UpdatePhase.queue : UpdatePhase → List ProcessChangesCursor
  | .iterating _ remaining pending =>
    (pending.map (·.cursor)).toList ++ remaining.map DocumentIndexEntry.cursor
  | _ => []

namespace SummaryWorld

variable (w : SummaryWorld)

/-- A cursor, if there is one, stands at a row of the feed. -/
def MarksAll (feed : ChangeFeed) (cursor : Option ProcessChangesCursor) : Prop :=
  ∀ c ∈ cursor, feed.Marks c

def PayloadMarks (feed : ChangeFeed) (payload : SummaryMetaPayload) : Prop :=
  MarksAll feed payload.cursor ∧ MarksAll feed payload.backfillCursor

/-- A pass under way: what it still goes through comes after its cursor.  A change of the
configuration may have taken the cursor of the backfill away. -/
structure Passing (pass : SummaryPass) (remaining : List DocumentIndexEntry)
    (pending : Option Item) : Prop where
  after : ∃ after, w.feed.Iterating after (UpdatePhase.iterating pass remaining pending).queue
    ∧ (pass = .incremental → after = (w.store.cursor.getD ChangeFeed.origin).changeSeq)
    ∧ (pass = .backfill → ∀ c ∈ w.store.backfillCursor, after = c.changeSeq)
  unmoved : w.feed.Unmoved remaining
  docId : ∀ item ∈ pending, item.cursor.docId = item.docId
  needsBackfill : pass = .backfill → w.store.needsBackfill = true

/-- **The cursors and the passes are in order.** -/
structure Ordered : Prop where
  feed : w.feed.InOrder
  next : 0 < w.feed.nextChangeSeq
  cursor : MarksAll w.feed w.store.cursor
  backfillCursor : MarksAll w.feed w.store.backfillCursor
  records : ∀ payload ∈ w.records.metaRecord, PayloadMarks w.feed payload
  payload : ∀ payload, w.update = .restoringBuckets payload → PayloadMarks w.feed payload
  passing : ∀ {pass remaining pending}, w.update = .iterating pass remaining pending →
    w.Passing pass remaining pending

variable {env : ExpressionRuntime} {w} {w' : SummaryWorld}

variable {feed : ChangeFeed} {records : SummaryRecords} {since : Bool}
  {config : Option SummaryConfig}

theorem ordered_opened (hfeed : feed.InOrder) (hnext : 0 < feed.nextChangeSeq)
    (hrecords : ∀ payload ∈ records.metaRecord, PayloadMarks feed payload) :
    Ordered (opened feed records since config) where
  feed := hfeed
  next := hnext
  cursor _ h := by cases h
  backfillCursor _ h := by cases h
  records := hrecords
  payload _ h := by cases h
  passing h := by cases h

theorem ordered_new (config : Option SummaryConfig) : Ordered (new config) :=
  ordered_opened ChangeFeed.inOrder_empty Nat.one_pos fun _ h => by cases h

variable {row : DocumentIndexEntry} {pass : SummaryPass} {remaining : List DocumentIndexEntry}

variable {pending : Option Item} {lastRead : JSString → Option InternalDoc}

theorem MarksAll.bumps {feed' : ChangeFeed}
    {cursor : Option ProcessChangesCursor} (h : MarksAll feed cursor)
    (hbumps : ChangeFeed.Bumps feed feed' row) : MarksAll feed' cursor :=
  fun c hc => hbumps.marks (h c hc)

/-- The rows of a pass come before the next number. -/
theorem Passing.below (h : w.Passing pass remaining pending) :
    ∀ row ∈ remaining, row.changeSeq < w.feed.nextChangeSeq := by
  obtain ⟨after, hiter, -⟩ := h.after
  intro row hrow
  have hmem : row.cursor ∈ (UpdatePhase.iterating pass remaining pending).queue :=
    List.mem_append_right _ (List.mem_map_of_mem hrow)
  exact (hiter.marks _ hmem).2.below

section

variable (h : w.Ordered)

include h

/-- **A change of a document keeps the order.** -/
theorem Ordered.bumps {store : DocumentSummaryStore} (hbumps : ChangeFeed.Bumps w.feed feed row)
    (htouched : w.store.Touched store row.docId) :
    Ordered { w with feed := feed, store := store, lastRead := lastRead } where
  feed := hbumps.inOrder h.feed h.next
  next := hbumps.next ▸ Nat.succ_pos _
  cursor := htouched.cursor ▸ h.cursor.bumps hbumps
  backfillCursor := htouched.backfillCursor ▸ h.backfillCursor.bumps hbumps
  records payload hmem := (h.records payload hmem).imp (·.bumps hbumps) (·.bumps hbumps)
  payload payload hupdate := (h.payload payload hupdate).imp (·.bumps hbumps) (·.bumps hbumps)
  passing hupdate := by
    have hpass := h.passing hupdate
    obtain ⟨after, hiter, hincremental, hbackfill⟩ := hpass.after
    exact {
      after := ⟨after, hiter.bumps hbumps, htouched.cursor ▸ hincremental,
        htouched.backfillCursor ▸ hbackfill⟩
      unmoved := hpass.unmoved.bumps hpass.below hbumps
      docId := hpass.docId
      needsBackfill := fun heq => htouched.needsBackfill.trans (hpass.needsBackfill heq) }

/-- **So does a step that leaves the feed, the cursors and the pass**, or lets the backfill begin
anew. -/
theorem Ordered.congr (hfeed : w'.feed = w.feed)
    (hupdate : w'.update = w.update ∨ w'.update.Outside ∧ ∀ payload,
      w'.update = .restoringBuckets payload → payload ∈ w.records.metaRecord)
    (hcursor : w'.store.cursor = w.store.cursor)
    (hbackfill : w'.store.needsBackfill = true ∧ w'.store.backfillCursor = none ∨
      w'.store.needsBackfill = w.store.needsBackfill
        ∧ w'.store.backfillCursor = w.store.backfillCursor)
    (hrecords : ∀ payload ∈ w'.records.metaRecord,
      payload ∈ w.records.metaRecord ∨ payload = w.store.metaPayload) : w'.Ordered where
  feed := hfeed ▸ h.feed
  next := hfeed ▸ h.next
  cursor := by
    rw [hfeed, hcursor]
    exact h.cursor
  backfillCursor := by
    rcases hbackfill with ⟨-, hnone⟩ | ⟨-, hsame⟩
    · rw [hnone]
      nofun
    · rw [hfeed, hsame]
      exact h.backfillCursor
  records payload hmem := by
    rw [hfeed]
    rcases hrecords payload hmem with hold | rfl
    · exact h.records payload hold
    · exact ⟨h.cursor, h.backfillCursor⟩
  payload payload hphase := by
    rw [hfeed]
    rcases hupdate with hsame | ⟨-, hread⟩
    · exact h.payload payload (hsame ▸ hphase)
    · exact h.records payload (hread payload hphase)
  passing {pass remaining pending} hphase := by
    rcases hupdate with hsame | ⟨houtside, -⟩
    · have hpass := h.passing (hsame ▸ hphase)
      obtain ⟨after, hiter, hincremental, hback⟩ := hpass.after
      refine ⟨⟨after, hfeed ▸ hiter, hcursor ▸ hincremental, fun heq c hc => ?_⟩,
        hfeed ▸ hpass.unmoved, hpass.docId, fun heq => ?_⟩
      · rcases hbackfill with ⟨-, hnone⟩ | ⟨-, hsame⟩
        · exact nomatch (hnone ▸ hc)
        · exact hback heq c (hsame ▸ hc)
      · rcases hbackfill with ⟨hneeds, -⟩ | ⟨hneeds, -⟩
        · exact hneeds
        · exact hneeds.trans (hpass.needsBackfill heq)
    · exact absurd houtside (hphase ▸ id)

theorem Ordered.marksAll_passCursor (pass : SummaryPass) :
    MarksAll w.feed (passCursor pass w.store) := by
  cases pass with
  | incremental => exact h.cursor
  | backfill => exact h.backfillCursor

/-- A pass goes on. -/
theorem Ordered.goes {store : DocumentSummaryStore} {scheduledSince : Bool}
    (hcursor : MarksAll w.feed store.cursor) (hbackfill : MarksAll w.feed store.backfillCursor)
    (hpass : Passing { w with store := store } pass remaining pending) :
    Ordered
      { w with
        store := store
        update := .iterating pass remaining pending
        lastRead := lastRead
        scheduledSince := scheduledSince } where
  feed := h.feed
  next := h.next
  cursor := hcursor
  backfillCursor := hbackfill
  records := h.records
  payload _ hphase := by cases hphase
  passing hphase := by
    cases hphase
    exact ⟨hpass.after, hpass.unmoved, hpass.docId, hpass.needsBackfill⟩

theorem Ordered.begins (hneeds : pass = .backfill → w.store.needsBackfill = true) :
    (w.beginPass env pass).Ordered := by
  obtain ⟨hiter, hunmoved⟩ := h.feed.toIndexed.iterating env.toRuntime h.next
    (h.marksAll_passCursor pass)
  refine h.goes h.cursor h.backfillCursor
    ⟨⟨_, hiter, ?_, ?_⟩, hunmoved, nofun, hneeds⟩
  · rintro rfl
    rfl
  · rintro rfl c hc
    rw [show passCursor .backfill w.store = some c from hc]
    rfl

theorem Ordered.fetches (hupdate : w.update = .iterating pass (row :: remaining) none) :
    (w.fetch pass row remaining).Ordered := by
  have hpass := h.passing hupdate
  obtain ⟨after, hiter, hafter⟩ := hpass.after
  have hunmoved : w.feed.Unmoved remaining := fun other hother =>
    hpass.unmoved other (List.mem_cons_of_mem _ hother)
  rw [fetch]
  cases hread : w.feed.read row with
  | none =>
    have hgone := h.feed.gone_of_read hpass.unmoved hread
    exact h.goes h.cursor h.backfillCursor
      ⟨⟨after, hiter.skip hgone, hafter⟩, hunmoved, nofun,
        hpass.needsBackfill⟩
  | some doc =>
    refine h.goes h.cursor h.backfillCursor
      ⟨⟨after, hiter, hafter⟩, hunmoved, fun item hmem => ?_, hpass.needsBackfill⟩
    obtain rfl := Option.some.inj hmem
    rfl

end

variable (env) in
/-- What applying an item does to the cursors. -/
theorem applyDocument_cursors (store : DocumentSummaryStore) (item : Item) :
    (store.applyDocument env item).cursor = store.cursor ∧
      ((store.applyDocument env item).needsBackfill = true
          ∧ (store.applyDocument env item).backfillCursor = none ∨
        (store.applyDocument env item).needsBackfill = store.needsBackfill
          ∧ (store.applyDocument env item).backfillCursor = store.backfillCursor) := by
  obtain ⟨store', hstore, htouched, -⟩ := store.applyDocument_spec env item
  rw [htouched.cursor, htouched.needsBackfill, htouched.backfillCursor]
  exact ⟨hstore.cursor, hstore.outcome.imp (fun h => ⟨h.2.1, h.2.2.1⟩) fun h => ⟨h.1, h.2.1⟩⟩

theorem Ordered.takes (h : w.Ordered) {item : Item}
    (hupdate : w.update = .iterating pass remaining (some item)) :
    (w.take env pass item remaining).Ordered := by
  have hpass := h.passing hupdate
  obtain ⟨after, hiter, -⟩ := hpass.after
  obtain ⟨hcursor, hbackfill⟩ := applyDocument_cursors env w.store item
  have hmarks : MarksAll w.feed (some item.cursor) := fun c hc =>
    Option.some.inj hc ▸ (hiter.marks _ List.mem_cons_self).2
  have hold : MarksAll w.feed (w.store.applyDocument env item).backfillCursor := by
    rcases hbackfill with ⟨-, hnone⟩ | ⟨-, hsame⟩
    · exact hnone ▸ nofun
    · exact hsame ▸ h.backfillCursor
  cases pass with
  | incremental =>
    exact h.goes hmarks hold ⟨⟨_, hiter.pass, fun _ => rfl, nofun⟩,
      hpass.unmoved, nofun, nofun⟩
  | backfill =>
    have hold : MarksAll w.feed (w.store.applyDocument env item).cursor := hcursor ▸ h.cursor
    refine h.goes hold hmarks ⟨⟨_, hiter.pass, nofun, fun _ c hc => ?_⟩,
      hpass.unmoved, nofun, fun heq => ?_⟩
    · exact congrArg ProcessChangesCursor.changeSeq (Option.some.inj hc)
    · rcases hbackfill with ⟨hneeds, -⟩ | ⟨hneeds, -⟩
      · exact hneeds
      · exact hneeds.trans (hpass.needsBackfill heq)

theorem Ordered.restores (h : w.Ordered) {payload : SummaryMetaPayload}
    (hupdate : w.update = .restoringBuckets payload) :
    (w.restore payload).Ordered := by
  obtain ⟨hcursor, hbackfill⟩ := h.payload payload hupdate
  refine ⟨h.feed, h.next, ?_, ?_, h.records, fun _ hphase => (by cases hphase),
    fun hphase => (by cases hphase)⟩
  · rw [restore, DocumentSummaryStore.restore]
    split_ifs <;> exact hcursor
  · rw [restore, DocumentSummaryStore.restore]
    split_ifs
    · exact fun c hc => absurd hc (by simp [scheduleBackfill])
    · exact hbackfill
    · exact h.backfillCursor

/-- **Every move keeps the order.** -/
theorem Ordered.move (h : w.Ordered) (hmove : Move env w w') : w'.Ordered := by
  cases hmove with
  | bumps hbumps hstore => exact h.bumps hbumps (hstore.touched)
  | scrubs docId hgone =>
    have htouched := (touched_removeDocument w.store docId).1
    exact h.congr rfl (.inl rfl) htouched.cursor
      (.inr ⟨htouched.needsBackfill, htouched.backfillCursor⟩) fun _ hmem => .inl hmem
  | @configures _ update _ _ hstore hphase =>
    refine h.congr rfl ?_ hstore.cursor (hstore.outcome.imp (fun h => ⟨h.2.1, h.2.2.1⟩) fun h => ⟨h.1, h.2.1⟩)
      fun _ hmem => .inl hmem
    rcases hphase with rfl | ⟨-, hfits⟩
    · exact .inl rfl
    · cases update with
      | restoringBuckets | iterating => exact hfits.elim
      | _ => exact .inr ⟨trivial, fun _ heq => (by cases heq)⟩
  | readsMeta hupdate hmeta =>
    refine h.congr rfl (.inr ⟨trivial, fun _ heq => ?_⟩) rfl (.inr ⟨rfl, rfl⟩)
      fun _ hmem => .inl hmem
    obtain rfl := UpdatePhase.restoringBuckets.inj heq
    exact hmeta
  | restoresNothing | stops =>
    exact h.congr rfl (.inr ⟨trivial, fun _ heq => (by cases heq)⟩) rfl (.inr ⟨rfl, rfl⟩)
      fun _ hmem => .inl hmem
  | restores hupdate => exact h.restores hupdate
  | begins hpass =>
    refine h.begins fun heq => ?_
    rcases hpass with ⟨rfl, -⟩ | ⟨-, -, hneeds⟩
    · cases heq
    · exact hneeds
  | fetches hupdate => exact h.fetches hupdate
  | takes hupdate => exact h.takes hupdate
  | completes hupdate =>
    exact ⟨h.feed, h.next, h.cursor, fun _ hc => (by cases hc), h.records,
      fun _ hphase => (by cases hphase), fun hphase => (by cases hphase)⟩
  | groups | writes | clears | fails =>
    exact h.congr rfl (.inl rfl) rfl (.inr ⟨rfl, rfl⟩) fun _ hmem => .inl hmem
  | writesMeta =>
    exact h.congr rfl (.inl rfl) rfl (.inr ⟨rfl, rfl⟩) fun _ hmem =>
      .inr (Option.some.inj hmem).symm
  | restarts config => exact ordered_opened h.feed h.next h.records

/-- **Every step keeps the order.** -/
theorem Ordered.step (h : w.Ordered) (event : SummaryEvent) : (w.step env event).Ordered := by
  rcases step_moves env h.feed event with hsame | hmove |
    ⟨-, w₁, hfirst, -, -, -, hsecond⟩
  · exact hsame.symm ▸ h
  · exact h.move hmove
  · exact (h.move hfirst).move hsecond

/-! ## Before the first pass -/

/-- Where an update can be, by whether the cache has been read. -/
def FitsRestored (restored : Bool) : UpdatePhase → Prop
  | .restoring => restored = false
  | .restoringBuckets _ => restored = false
  | .ready => restored = true
  | .iterating .. => restored = true
  | _ => True

variable (w) in
/-- A summary that holds nothing. -/
structure Untouched : Prop where
  entries : w.store.entries = ∅
  cursor : w.store.cursor = none
  dirtyBuckets : w.store.dirtyBuckets = ∅
  needsBackfill : w.store.needsBackfill = false
  lastRead : ∀ docId, w.lastRead docId = none

variable (w) in
/-- **What has not been restored is empty**, and no pass begins before that. -/
structure Begun : Prop where
  phase : FitsRestored w.store.restored w.update
  unrestored : w.store.restored = false → w.Untouched

theorem begun_opened : Begun (opened feed records since config) :=
  ⟨trivial, fun _ => ⟨rfl, rfl, rfl, rfl, fun _ => rfl⟩⟩

theorem begun_new (config : Option SummaryConfig) : Begun (new config) := begun_opened

theorem Untouched.congr (h : w.Untouched) (hentries : w'.store.entries = w.store.entries)
    (hcursor : w'.store.cursor = w.store.cursor)
    (hdirty : w'.store.dirtyBuckets = w.store.dirtyBuckets)
    (hneeds : w'.store.needsBackfill = w.store.needsBackfill)
    (hlastRead : w'.lastRead = w.lastRead) : w'.Untouched :=
  ⟨hentries.trans h.entries, hcursor.trans h.cursor, hdirty.trans h.dirtyBuckets,
    hneeds.trans h.needsBackfill, hlastRead ▸ h.lastRead⟩

/-- Once it has been restored there is only the phase to look at. -/
theorem begun_of_restored (hrestored : w.store.restored = true)
    (hphase : FitsRestored true w.update) : w.Begun :=
  ⟨hrestored ▸ hphase, fun h => absurd (hrestored.symm.trans h) (by simp)⟩

theorem forget_eq_none {docId other : JSString} (h : w.lastRead other = none) :
    w.forget docId other = none := by
  rw [forget, Function.update_apply]
  split
  · rfl
  · exact h

theorem Begun.restored_of_iterating (h : w.Begun)
    (hupdate : w.update = .iterating pass remaining pending) : w.store.restored = true := by
  have hphase := h.phase
  rwa [hupdate] at hphase

variable (env) in
theorem restored_applyDocument (store : DocumentSummaryStore) (item : Item) :
    (store.applyDocument env item).restored = store.restored := by
  obtain ⟨store', hstore, htouched, -⟩ := store.applyDocument_spec env item
  exact htouched.restored.trans hstore.restored

/-- Every move keeps that. -/
theorem Begun.move (h : w.Begun) (hmove : Move env w w') : w'.Begun := by
  have hsame : ∀ {w' : SummaryWorld}, w'.update = w.update →
      w'.store.restored = w.store.restored → FitsRestored w'.store.restored w'.update := by
    intro w' hupdate hrestored
    rw [hupdate, hrestored]
    exact h.phase
  cases hmove with
  | bumps hbumps hstore =>
    refine ⟨hsame rfl hstore.touched.restored, fun hfalse => ?_⟩
    have hempty := h.unrestored (hstore.touched.restored.symm.trans hfalse)
    obtain rfl := hstore.eq_of_empty hempty.entries
    exact ⟨hempty.entries, hempty.cursor, hempty.dirtyBuckets, hempty.needsBackfill, fun other =>
      forget_eq_none (hempty.lastRead other)⟩
  | scrubs docId hgone =>
    have hpurged : w.store.Purged (w.store.removeDocument docId) docId := .inr rfl
    refine ⟨hsame rfl hpurged.touched.restored, fun hfalse => ?_⟩
    have hempty := h.unrestored (hpurged.touched.restored.symm.trans hfalse)
    have hstore := hpurged.eq_of_empty hempty.entries
    exact ⟨(congrArg entries hstore).trans hempty.entries,
      (congrArg cursor hstore).trans hempty.cursor,
      (congrArg dirtyBuckets hstore).trans hempty.dirtyBuckets,
      (congrArg needsBackfill hstore).trans hempty.needsBackfill,
      fun other => forget_eq_none (hempty.lastRead other)⟩
  | @configures _ update _ _ hstore hphase =>
    refine ⟨?_, fun hfalse => ?_⟩
    rotate_left
    · have hempty := h.unrestored (hstore.restored.symm.trans hfalse)
      refine hempty.congr hstore.entries hstore.cursor hstore.dirtyBuckets ?_ rfl
      rcases hstore.outcome with ⟨-, -, -, hprogress⟩ | ⟨hneeds, -⟩
      · exact absurd (hprogress.symm.trans
          (hasProgress_eq_false hempty.entries hempty.cursor)) (by simp)
      · exact hneeds
    rcases hphase with rfl | ⟨-, hfits⟩
    · exact hsame rfl hstore.restored
    · cases update with
      | restoring | ready => exact hstore.restored.trans hfits
      | restoringBuckets | iterating => exact hfits.elim
      | _ => trivial
  | readsMeta hupdate hmeta =>
    have hphase := h.phase
    rw [hupdate] at hphase
    exact ⟨hphase, fun hfalse => (h.unrestored hfalse).congr rfl rfl rfl rfl rfl⟩
  | restoresNothing => exact begun_of_restored rfl rfl
  | restores =>
    refine begun_of_restored ?_ rfl
    simp only [restore, DocumentSummaryStore.restore]
    split_ifs <;> rfl
  | begins hpass =>
    refine begun_of_restored ?_ rfl
    have hphase := h.phase
    rcases hpass with ⟨-, hupdate⟩ | ⟨-, hupdate, -⟩
    · rwa [hupdate] at hphase
    · rwa [hupdate] at hphase
  | fetches hupdate =>
    have hrestored := h.restored_of_iterating hupdate
    rw [fetch]
    split
    · exact begun_of_restored hrestored rfl
    · exact begun_of_restored hrestored rfl
  | @takes pass item remaining hupdate =>
    refine begun_of_restored ?_ rfl
    have hrestored := (restored_applyDocument env w.store item).trans
      (h.restored_of_iterating hupdate)
    cases pass with
    | incremental | backfill => exact hrestored
  | stops hupdate | completes hupdate =>
    exact begun_of_restored (h.restored_of_iterating hupdate) trivial
  | groups | writes | writesMeta | fails =>
    exact ⟨h.phase, fun hfalse => (h.unrestored hfalse).congr rfl rfl rfl rfl rfl⟩
  | clears =>
    exact ⟨h.phase, fun hfalse => ⟨(h.unrestored hfalse).entries, (h.unrestored hfalse).cursor, rfl,
      (h.unrestored hfalse).needsBackfill, (h.unrestored hfalse).lastRead⟩⟩
  | restarts config => exact ⟨trivial, fun _ => ⟨rfl, rfl, rfl, rfl, fun _ => rfl⟩⟩

theorem Begun.step (h : w.Begun) (hordered : w.Ordered) (event : SummaryEvent) :
    (w.step env event).Begun := by
  rcases step_moves env hordered.feed event with hsame | hmove | ⟨-, w₁, hfirst, -, -, -, hsecond⟩
  · exact hsame.symm ▸ h
  · exact h.move hmove
  · exact (h.move hfirst).move hsecond

end SummaryWorld

end MindooDB
