import MindooDB.Summary.Ordered

/-!
# Summary/Coverage — what full coverage promises

`Honest`: every entry of a document that has not changed since it was read has the fields that the
present configuration takes, or is due to be read again.  A change of the configuration breaks it in
one place only: in a backfill that has already taken a document, because the pass moves its cursor on
and ends by declaring the summary complete.
-/

namespace MindooDB

open DocumentSummaryStore Option UpdatePhase

namespace SummaryWorld

variable (env : ExpressionRuntime) (w : SummaryWorld)

/-- **Full coverage, and no update running: the entries are as the configuration has them.** -/
def HonestCoverage : Prop :=
  w.store.getCoverage = .full → w.update = .idle →
    ∀ docId entry doc, w.store.entries.get? docId = some entry → w.lastRead docId = some doc →
      w.feed.documents docId = some doc
        ∧ entry.fields = extractSummaryFields env doc.data w.store.config

/-! ## The condition -/

/-- The rows that a backfill under way still goes through. -/
def backfilling : Option (List DocumentIndexEntry) :=
  match w.update with
  | .iterating .backfill remaining _ => some remaining
  | _ => none

/-- The backfill is under way and has taken a document, now or in an earlier update. -/
def midBackfill : Bool :=
  w.backfilling.isSome && w.store.backfillCursor.isSome

/-- A configuration with another fingerprint takes effect. -/
def reconfigures : SummaryEvent → Bool
  | .setConfig config => w.store.changes config
  | .configLoaded =>
    w.configLoading &&
      ((w.feed.getDocument DB_SETUP_DOC_ID).bind setupConfig).any
        fun config => w.store.changes (some config)
  | .advanceUpdate =>
    match w.update with
    | .iterating _ _ (some item) =>
      item.docId = DB_SETUP_DOC_ID && !w.store.hasExplicitConfig && w.store.changes item.config
    | _ => false
  | _ => false

/-- No configuration takes effect amid a backfill. -/
def SparesBackfill (event : SummaryEvent) : Prop :=
  w.midBackfill = true → w.reconfigures event = false

instance (event : SummaryEvent) : Decidable (w.SparesBackfill event) :=
  inferInstanceAs (Decidable (_ → _))

/-! ## The invariant -/

/-- The item in hand. -/
def inHand : Option Item :=
  match w.update with
  | .iterating _ _ pending => pending
  | _ => none

/-- The backfill that is to come will read a document. -/
def DueLater (docId : JSString) : Prop :=
  w.store.needsBackfill = true ∧ ∀ row ∈ w.feed.index, row.docId = docId →
    ∀ c ∈ w.store.backfillCursor, c.changeSeq < row.changeSeq

/-- A document that will be read again before coverage is full. -/
def Due (docId : JSString) : Prop :=
  (∃ item, w.inHand = some item ∧ item.docId = docId) ∨
    match w.backfilling with
    | some remaining => ∃ row ∈ remaining, row.docId = docId
    | none => w.DueLater docId

/-- **What keeps coverage honest.** -/
structure Honest : Prop where
  reads : ∀ {docId doc}, w.lastRead docId = some doc → w.feed.documents docId = some doc
  held : ∀ {item doc}, w.inHand = some item → w.lastRead item.docId = some doc → doc = item.doc
  fields : ∀ {docId entry doc}, w.store.entries.get? docId = some entry →
    w.lastRead docId = some doc →
      entry.fields = extractSummaryFields env doc.data w.store.config ∨ w.Due docId
  unread : w.backfilling.isSome → w.store.backfillCursor = none →
    ∀ {docId doc}, w.lastRead docId = some doc → w.Due docId

variable {env w} {w' : SummaryWorld}

/-- Nothing has been read. -/
theorem honest_of_lastRead (h : ∀ docId, w.lastRead docId = none) : w.Honest env where
  reads hread := nomatch (h _).symm.trans hread
  held _ hread := nomatch (h _).symm.trans hread
  fields _ hread := nomatch (h _).symm.trans hread
  unread _ _ _ _ hread := nomatch (h _).symm.trans hread

theorem Honest.honestCoverage (h : w.Honest env) : w.HonestCoverage env := by
  intro hcoverage hidle docId entry doc hentry hread
  refine ⟨h.reads hread, ?_⟩
  have hneeds : w.store.needsBackfill = false := by
    by_contra hneeds
    rw [getCoverage, if_pos (Bool.eq_true_of_not_eq_false hneeds)] at hcoverage
    exact nomatch hcoverage
  rcases h.fields hentry hread with hfields | hdue
  · exact hfields
  · rw [Due, inHand, backfilling, hidle] at hdue
    rcases hdue with ⟨item, hitem, -⟩ | ⟨htrue, -⟩
    · exact nomatch hitem
    · exact nomatch hneeds.symm.trans htrue

/-! ## What the moves do -/

theorem exists_of_inHand {item : Item} (h : w.inHand = some item) :
    ∃ pass remaining, w.update = .iterating pass remaining (some item) := by
  rw [inHand] at h
  cases hupdate : w.update with
  | iterating pass remaining pending =>
    rw [hupdate] at h
    exact ⟨pass, remaining, congrArg _ h⟩
  | _ =>
    rw [hupdate] at h
    exact nomatch h

variable {docId : JSString}

theorem lastRead_of_forget {other : JSString} {doc : InternalDoc}
    (h : w.forget docId other = some doc) : other ≠ docId ∧ w.lastRead other = some doc := by
  rw [forget, Function.update_apply] at h
  split at h
  · cases h
  · exact ⟨‹_›, h⟩

/-- A move that leaves what is read and what is in hand. -/
theorem Due.of_same (h : w.Due docId) (hheld : w'.inHand = w.inHand)
    (hbackfilling : w'.backfilling = w.backfilling)
    (hlater : w.DueLater docId → w'.DueLater docId) : w'.Due docId := by
  rw [Due, hheld, hbackfilling]
  refine h.imp_right fun hrest => ?_
  cases hrows : w.backfilling with
  | none =>
    rw [hrows] at hrest
    exact hlater hrest
  | some remaining =>
    rw [hrows] at hrest
    exact hrest

variable {row : DocumentIndexEntry} {store : DocumentSummaryStore}

/-- **A change of a document** leaves the others as they are. -/
theorem Honest.bumps (h : w.Honest env) {feed : ChangeFeed}
    (hbumps : ChangeFeed.Bumps w.feed feed row) (htouched : w.store.Touched store row.docId) :
    Honest env { w with feed := feed, store := store, lastRead := w.forget row.docId } := by
  have hdue : ∀ {docId}, docId ≠ row.docId → w.Due docId →
      Due { w with feed := feed, store := store, lastRead := w.forget row.docId } docId := by
    intro docId hne hdue
    refine hdue.of_same rfl rfl fun ⟨hneeds, hafter⟩ =>
      ⟨htouched.needsBackfill.trans hneeds, fun other hother hdocId c hc => ?_⟩
    rcases hbumps.mem_index.mp hother with rfl | ⟨hmem, -⟩
    · exact absurd hdocId.symm hne
    · exact hafter other hmem hdocId c (htouched.backfillCursor ▸ hc)
  refine ⟨fun hread => ?_, fun hitem hread => h.held hitem (lastRead_of_forget hread).2,
    fun {docId entry doc} hentry hread => ?_, fun hbackfill hnone docId doc hread => ?_⟩
  · obtain ⟨hne, hread⟩ := lastRead_of_forget hread
    exact (hbumps.documents _ hne).trans (h.reads hread)
  · obtain ⟨hne, hread⟩ := lastRead_of_forget hread
    have hentry := (htouched.others docId hne).symm.trans hentry
    exact (h.fields hentry hread).imp (fun hfields => htouched.config ▸ hfields) (hdue hne)
  · obtain ⟨hne, hread⟩ := lastRead_of_forget hread
    exact hdue hne (h.unread hbackfill (htouched.backfillCursor.symm.trans hnone) hread)

/-- An entry is removed. -/
theorem Honest.scrubs (h : w.Honest env) (htouched : w.store.Touched store docId) :
    Honest env { w with store := store, lastRead := w.forget docId } := by
  have hdue : ∀ {other}, w.Due other →
      Due { w with store := store, lastRead := w.forget docId } other := fun hdue =>
    hdue.of_same rfl rfl fun ⟨hneeds, hafter⟩ => ⟨htouched.needsBackfill.trans hneeds,
      fun row hrow hdocId c hc => hafter row hrow hdocId c (htouched.backfillCursor ▸ hc)⟩
  refine ⟨fun hread => h.reads (lastRead_of_forget hread).2,
    fun hitem hread => h.held hitem (lastRead_of_forget hread).2,
    fun {other entry doc} hentry hread => ?_, fun hbackfill hnone other doc hread =>
      hdue (h.unread hbackfill (htouched.backfillCursor.symm.trans hnone)
        (lastRead_of_forget hread).2)⟩
  obtain ⟨hne, hread⟩ := lastRead_of_forget hread
  exact (h.fields ((htouched.others other hne).symm.trans hentry) hread).imp
    (fun hfields => htouched.config ▸ hfields) hdue

theorem inHand_of_outside (h : w.update.Outside) : w.inHand = none := by
  rw [inHand]
  cases hupdate : w.update with
  | iterating => exact (hupdate ▸ h : Outside (.iterating ..)).elim
  | _ => rfl

theorem backfilling_of_outside (h : w.update.Outside) : w.backfilling = none := by
  rw [backfilling]
  cases hupdate : w.update with
  | iterating => exact (hupdate ▸ h : Outside (.iterating ..)).elim
  | _ => rfl

theorem Fits.outside {update : UpdatePhase} (h : w.Fits update) : update.Outside := by
  cases update with
  | iterating => exact h
  | _ => trivial

/-- A change of the configuration leaves what a backfill goes through. -/
theorem backfilling_configured (store : DocumentSummaryStore) {update : UpdatePhase}
    (hphase : update = w.update ∨ w.update.Outside ∧ w.Fits update) :
    backfilling { w with store := store, update := update } = w.backfilling := by
  rcases hphase with rfl | ⟨hbefore, hfits⟩
  · rfl
  · exact (backfilling_of_outside hfits.outside).trans (backfilling_of_outside hbefore).symm

/-- A change amid a backfill finds it without a document taken. -/
theorem backfillCursor_of_changed (hconfig : store.config ≠ w.store.config)
    (hspares : w.midBackfill = true → store.config = w.store.config)
    (h : w.backfilling.isSome) : w.store.backfillCursor = none := by
  by_contra hsome
  exact hconfig (hspares (by
    rw [midBackfill, h, isSome_iff_ne_none.mpr hsome]
    rfl))

theorem exists_of_backfilling (h : w.backfilling.isSome) :
    ∃ remaining pending, w.update = .iterating .backfill remaining pending := by
  rw [backfilling] at h
  split at h
  · exact ⟨_, _, ‹_›⟩
  · exact nomatch h

theorem backfilling_of_fetch {pass : SummaryPass} {rows remaining : List DocumentIndexEntry}
    (hupdate : w.update = .iterating pass rows none) {pending : Option Item}
    {lastRead : JSString → Option InternalDoc} (h : (backfilling { w with
      update := .iterating pass remaining pending, lastRead := lastRead }).isSome) :
    w.backfilling.isSome := by
  obtain ⟨_, _, heq⟩ := exists_of_backfilling h
  obtain rfl := (iterating.inj heq).1
  rw [backfilling, hupdate]
  rfl

theorem pass_of_midBackfill {pass : SummaryPass} {remaining : List DocumentIndexEntry}
    {pending : Option Item} (hupdate : w.update = .iterating pass remaining pending)
    (h : w.midBackfill = true) : pass = .backfill := by
  obtain ⟨_, _, heq⟩ := exists_of_backfilling (Bool.and_eq_true_iff.mp h).1
  exact (iterating.inj (hupdate.symm.trans heq)).1

/-- **A change of the configuration** makes every document due, unless it comes amid a backfill. -/
theorem Honest.configures (h : w.Honest env) {store : DocumentSummaryStore} {update : UpdatePhase}
    {configLoading scheduledSince : Bool} (hstore : w.store.Reconfigured store)
    (hphase : update = w.update ∨ w.update.Outside ∧ w.Fits update)
    (hspares : w.midBackfill = true → store.config = w.store.config) :
    Honest env
      { w with
        store := store
        update := update
        configLoading := configLoading
        scheduledSince := scheduledSince } := by
  -- Where the update stands and what it holds is as before.
  have hheld : inHand { w with store := store, update := update } = w.inHand := by
    rcases hphase with rfl | ⟨hbefore, hfits⟩
    · rfl
    · exact (inHand_of_outside hfits.outside).trans (inHand_of_outside hbefore).symm
  have hbackfilling : backfilling { w with store := store, update := update }
      = w.backfilling := backfilling_configured store hphase
  rcases hstore.outcome with ⟨hconfig, hneeds, hnone, -⟩ | ⟨hneeds, hcursor, hsame⟩
  · have hdue : ∀ {docId doc}, w.lastRead docId = some doc →
        Due { w with store := store, update := update } docId := by
      intro docId doc hread
      have hlater : DueLater { w with store := store, update := update } docId :=
        ⟨hneeds, fun _ _ _ c hc => absurd (hnone ▸ hc : c ∈ none) (by simp)⟩
      cases hrows : w.backfilling with
      | none => exact .inr (by rw [hbackfilling, hrows]; exact hlater)
      | some remaining =>
        have hunread : w.store.backfillCursor = none :=
          backfillCursor_of_changed hconfig hspares (by simp [hrows])
        exact (h.unread (by simp [hrows]) hunread hread).of_same hheld hbackfilling
          fun _ => hlater
    exact ⟨h.reads, fun hitem hread => h.held (hheld ▸ hitem) hread,
      fun _ hread => .inr (hdue hread), fun _ _ _ _ hread => hdue hread⟩
  · have hdue : ∀ {docId}, w.Due docId →
        Due { w with store := store, update := update } docId :=
      fun hdue => hdue.of_same hheld hbackfilling fun hlater =>
        ⟨hneeds.trans hlater.1, fun row hrow hdocId c hc =>
          hlater.2 row hrow hdocId c (hcursor ▸ hc)⟩
    refine ⟨h.reads, fun hitem hread => h.held (hheld ▸ hitem) hread,
      fun {docId entry doc} hentry hread => ?_, fun hbackfill hnone _ _ hread =>
        hdue (h.unread (hbackfilling ▸ hbackfill) (hcursor.symm.trans hnone) hread)⟩
    have hentry : w.store.entries.get? docId = some entry := hstore.entries ▸ hentry
    rcases hsame with hconfig | ⟨hempty, -⟩
    · exact (h.fields hentry hread).imp (fun hfields => hconfig ▸ hfields) hdue
    · rw [hempty] at hentry
      exact nomatch hentry

/-- **What was read is applied**, by the configuration of the moment. -/
theorem Honest.takes (h : w.Honest env) {pass : SummaryPass} {item : Item}
    {remaining : List DocumentIndexEntry}
    (hupdate : w.update = .iterating pass remaining (some item))
    (hspares : w.midBackfill = true →
      (w.store.applyDocument env item).config = w.store.config) :
    (w.take env pass item remaining).Honest env := by
  obtain ⟨store', hstore, htouched, hitem⟩ := w.store.applyDocument_spec env item
  have hheld : w.inHand = some item := by rw [inHand, hupdate]
  have hmoved : ∀ {store : DocumentSummaryStore},
      (moveCursor pass item.cursor store).entries = store.entries
        ∧ (moveCursor pass item.cursor store).config = store.config := by
    intro store
    cases pass <;> exact ⟨rfl, rfl⟩
  have hrest : ∀ {docId}, docId ≠ item.docId → w.Due docId →
      match w.backfilling with
      | some remaining => ∃ row ∈ remaining, row.docId = docId
      | none => w.DueLater docId := by
    intro docId hne hdue
    refine hdue.resolve_left ?_
    rintro ⟨other, hother, hdocId⟩
    rw [hheld] at hother
    obtain rfl := some.inj hother
    exact hne hdocId.symm
  have hothers : ∀ {docId entry doc}, docId ≠ item.docId →
      w.store.entries.get? docId = some entry → w.lastRead docId = some doc →
      entry.fields = extractSummaryFields env doc.data (w.store.applyDocument env item).config
        ∨ (w.take env pass item remaining).Due docId := by
    intro docId entry doc hne hentry hread
    have hfields := (h.fields hentry hread).imp_right (hrest hne)
    rw [htouched.config]
    cases pass with
    | incremental =>
      have hrows : w.backfilling = none := by rw [backfilling, hupdate]
      rw [hrows] at hfields
      rcases hstore.outcome with ⟨-, hneeds, hnone, -⟩ | ⟨hneeds, hcursor, hsame⟩
      · refine .inr (.inr ⟨htouched.needsBackfill.trans hneeds, fun _ _ _ c hc => ?_⟩)
        exact nomatch (htouched.backfillCursor.trans hnone ▸ hc : c ∈ none)
      · rcases hsame with hconfig | ⟨hempty, -⟩
        · refine hfields.imp (fun hfields => hconfig ▸ hfields) fun hlater => .inr ?_
          exact ⟨(htouched.needsBackfill.trans hneeds).trans hlater.1,
            fun row hrow hdocId c hc => hlater.2 row hrow hdocId c
              (htouched.backfillCursor.trans hcursor ▸ hc)⟩
        · rw [hempty] at hentry
          exact nomatch hentry
    | backfill =>
      have hrows : w.backfilling = some remaining := by rw [backfilling, hupdate]
      rw [hrows] at hfields
      by_cases hconfig : store'.config = w.store.config
      · exact hfields.imp (fun hfields => hconfig ▸ hfields) .inr
      · have hunread : w.store.backfillCursor = none := by
          by_contra hsome
          refine hconfig (htouched.config.symm.trans (hspares ?_))
          rw [midBackfill, hrows, isSome_iff_ne_none.mpr hsome]
          rfl
        have hdue := hrest hne (h.unread (by simp [hrows]) hunread hread)
        rw [hrows] at hdue
        exact .inr (.inr hdue)
  refine ⟨h.reads, fun hitem => absurd hitem (by simp [inHand, take]),
    fun {docId entry doc} hentry hread => ?_, fun hbackfill hnone => ?_⟩
  · have hentry := (congrArg (fun entries => entries.get? docId) hmoved.1).symm.trans hentry
    rw [show (w.take env pass item remaining).store.config
      = (w.store.applyDocument env item).config from hmoved.2]
    by_cases heq : docId = item.docId
    · subst heq
      have hsame := hitem entry hentry
      rw [hsame, h.held hheld hread]
      exact .inl rfl
    · exact hothers heq (((congrArg (fun entries => entries.get? docId) hstore.entries).symm.trans
        (htouched.others docId heq).symm).trans hentry) hread
  · cases pass with
    | incremental => exact absurd hbackfill (by simp [backfilling, take])
    | backfill => exact absurd hnone (by simp [take, moveCursor])

/-- A row that comes after a cursor is among those an iteration goes through. -/
theorem Ordered.mem_rowsSince (h : w.Ordered) {cursor : Option ProcessChangesCursor}
    (hmarks : MarksAll w.feed cursor) (hrow : row ∈ w.feed.index)
    (hafter : ∀ c ∈ cursor, c.changeSeq < row.changeSeq) :
    row ∈ w.feed.rowsSince env.toRuntime cursor := by
  rw [h.feed.toIndexed.rowsSince_eq h.next hmarks]
  refine List.mem_filter.mpr ⟨hrow, decide_eq_true ?_⟩
  cases cursor with
  | none => exact (h.feed.below row hrow).1
  | some c => exact hafter c rfl

/-- Nothing is in hand and no backfill goes on, before and after. -/
theorem Honest.waits (h : w.Honest env) {update : UpdatePhase}
    (hbefore : w.inHand = none ∧ w.backfilling = none)
    (hafter : inHand { w with update := update } = none
      ∧ backfilling { w with update := update } = none)
    (hentries : store.entries = w.store.entries) (hconfig : store.config = w.store.config)
    (hlater : ∀ docId, w.DueLater docId → DueLater { w with store := store } docId) :
    Honest env { w with store := store, update := update } := by
  refine ⟨h.reads, fun hitem => absurd (hafter.1.symm.trans hitem) (by simp),
    fun {docId entry doc} hentry hread => ?_, fun hbackfill => ?_⟩
  · refine (h.fields (hentries ▸ hentry) hread).imp (fun hfields => hconfig ▸ hfields) fun hdue => ?_
    exact hdue.of_same (hafter.1.trans hbefore.1.symm) (hafter.2.trans hbefore.2.symm) (hlater docId)
  · rw [show backfilling { w with store := store, update := update } = none from hafter.2]
      at hbackfill
    exact nomatch hbackfill

/-- **The backfill begins** with all that it has to read. -/
theorem Honest.begins_backfill (h : w.Honest env) (hordered : w.Ordered)
    (hupdate : w.update = .iterating .incremental [] none) :
    (w.beginPass env .backfill).Honest env := by
  have hdue : ∀ {docId doc}, w.lastRead docId = some doc →
      (∀ row ∈ w.feed.index, row.docId = docId →
        ∀ c ∈ w.store.backfillCursor, c.changeSeq < row.changeSeq) →
      (w.beginPass env .backfill).Due docId := by
    intro docId doc hread hafter
    obtain ⟨row, hrow, hdocId⟩ := hordered.feed.listed docId doc (h.reads hread)
    exact .inr ⟨row, hordered.mem_rowsSince hordered.backfillCursor hrow (hafter row hrow hdocId),
      hdocId⟩
  refine ⟨h.reads, fun hitem => absurd hitem (by simp [inHand, beginPass]), fun hentry hread => ?_,
    fun _ hnone docId doc hread => hdue hread fun _ _ _ c hc => ?_⟩
  · refine (h.fields hentry hread).imp_right fun hold => hdue hread ?_
    rcases hold with ⟨item, hitem, -⟩ | hrest
    · rw [inHand, hupdate] at hitem
      exact nomatch hitem
    · rw [backfilling, hupdate] at hrest
      exact hrest.2
  · exact nomatch (hnone ▸ hc : c ∈ none)

/-- What is due stays due when the row of another document has been read. -/
theorem Due.of_fetch (h : w.Due docId) {pass : SummaryPass} {remaining : List DocumentIndexEntry}
    (hupdate : w.update = .iterating pass (row :: remaining) none) (hne : docId ≠ row.docId)
    {pending : Option Item} {lastRead : JSString → Option InternalDoc} :
    Due { w with update := .iterating pass remaining pending, lastRead := lastRead } docId := by
  rw [Due, inHand, backfilling, hupdate] at h
  refine .inr ?_
  cases pass with
  | incremental => exact h.resolve_left fun ⟨item, hitem, _⟩ => nomatch hitem
  | backfill =>
    obtain ⟨other, hother, hdocId⟩ := h.resolve_left fun ⟨item, hitem, _⟩ => nomatch hitem
    rcases List.mem_cons.mp hother with rfl | hother
    · exact absurd hdocId.symm hne
    · exact ⟨other, hother, hdocId⟩

/-- **A row is read**, or its document is gone. -/
theorem Honest.fetches (h : w.Honest env) {pass : SummaryPass} {row : DocumentIndexEntry}
    {remaining : List DocumentIndexEntry}
    (hupdate : w.update = .iterating pass (row :: remaining) none) :
    (w.fetch pass row remaining).Honest env := by
  rw [fetch]
  cases hread : w.feed.read row with
  | none =>
    have hne : ∀ {docId doc}, w.lastRead docId = some doc → docId ≠ row.docId := by
      rintro docId doc hlast rfl
      have hdocument := h.reads hlast
      rw [ChangeFeed.read] at hread
      split at hread
      · cases hread.symm.trans hdocument
      · cases hread
    exact ⟨h.reads, fun hitem => absurd hitem (by simp [inHand]), fun hentry hlast =>
      (h.fields hentry hlast).imp_right fun hdue => hdue.of_fetch hupdate (hne hlast),
      fun hbackfill hnone _ _ hlast =>
        (h.unread (backfilling_of_fetch hupdate hbackfill) hnone hlast).of_fetch hupdate (hne hlast)⟩
  | some doc =>
    have hlast : ∀ {docId other}, Function.update w.lastRead row.docId
        (if row.accessState = .visible ∧ row.isDeleted = false then some doc else none) docId
          = some other →
        docId = row.docId ∧ other = doc ∧ w.feed.documents docId = some doc ∨
          docId ≠ row.docId ∧ w.lastRead docId = some other := by
      intro docId other hlast
      by_cases heq : docId = row.docId
      · subst heq
        rw [Function.update_self] at hlast
        split at hlast
        · rename_i hlive
          rw [ChangeFeed.read, if_pos hlive] at hread
          exact .inl ⟨rfl, (some.inj hlast).symm, hread⟩
        · cases hlast
      · rw [Function.update_of_ne heq] at hlast
        exact .inr ⟨heq, hlast⟩
    have hheld : ∀ {lastRead}, Due { w with
        update := .iterating pass remaining (some ⟨row.docId, doc, row.cursor⟩),
        lastRead := lastRead } row.docId := .inl ⟨_, rfl, rfl⟩
    refine ⟨fun hread => ?_, fun hitem hread => ?_, fun hentry hread => ?_,
      fun hbackfill hnone docId other hread => ?_⟩
    · rcases hlast hread with ⟨-, rfl, hdocument⟩ | ⟨-, hread⟩
      · exact hdocument
      · exact h.reads hread
    · obtain rfl := some.inj hitem
      rcases hlast hread with ⟨-, rfl, -⟩ | ⟨hne, -⟩
      · rfl
      · exact absurd rfl hne
    · rcases hlast hread with ⟨rfl, -, -⟩ | ⟨hne, hread⟩
      · exact .inr hheld
      · exact (h.fields hentry hread).imp_right fun hdue => hdue.of_fetch hupdate hne
    · rcases hlast hread with ⟨rfl, -, -⟩ | ⟨hne, hread⟩
      · exact hheld
      · exact (h.unread (backfilling_of_fetch hupdate hbackfill) hnone hread).of_fetch hupdate hne

/-- **An update that stops** leaves the rest of a backfill to the next. -/
theorem Honest.stops (h : w.Honest env) (hordered : w.Ordered) {pass : SummaryPass}
    {remaining : List DocumentIndexEntry} (hupdate : w.update = .iterating pass remaining none) :
    Honest env { w with update := .idle } := by
  refine ⟨h.reads, fun hitem => absurd hitem (by simp [inHand]), fun hentry hread =>
    (h.fields hentry hread).imp_right fun hdue => Or.inr ?_, fun hbackfill =>
      absurd hbackfill (by simp [backfilling])⟩
  rw [Due, inHand, backfilling, hupdate] at hdue
  have hrest := hdue.resolve_left fun ⟨item, hitem, _⟩ => nomatch hitem
  cases pass with
  | incremental => exact hrest
  | backfill =>
    obtain ⟨row, hrow, rfl⟩ := hrest
    have hpass := hordered.passing hupdate
    obtain ⟨after, hiter, -, hafter⟩ := hpass.after
    have hmem : row.cursor ∈ (iterating .backfill remaining none).queue :=
      List.mem_map_of_mem hrow
    refine ⟨hpass.needsBackfill rfl, fun other hother hdocId c hc => ?_⟩
    calc c.changeSeq = after := (hafter rfl c hc).symm
      _ < row.changeSeq := (hiter.marks _ hmem).1
      _ ≤ other.changeSeq := hiter.notBefore _ hmem other hother hdocId

/-- **A backfill that is through** has left nothing due. -/
theorem Honest.completes (h : w.Honest env)
    (hupdate : w.update = .iterating .backfill [] none) : (w.endPass env .backfill).Honest env := by
  refine ⟨h.reads, fun hitem => absurd hitem (by simp [inHand, endPass]), fun hentry hread => ?_,
    fun hbackfill => absurd hbackfill (by simp [backfilling, endPass])⟩
  refine .inl ((h.fields hentry hread).resolve_right fun hdue => ?_)
  rw [Due, inHand, backfilling, hupdate] at hdue
  rcases hdue with ⟨item, hitem, -⟩ | ⟨row, hrow, -⟩
  · cases hitem
  · cases hrow

/-- **Every move that spares a backfill keeps coverage honest.** -/
theorem Honest.move (h : w.Honest env) (hordered : w.Ordered) (hbegun : w.Begun)
    (hmove : Move env w w')
    (hspares : w.midBackfill = true → w'.backfilling.isSome →
      w'.store.config = w.store.config) : w'.Honest env := by
  cases hmove with
  | bumps hbumps hstore => exact h.bumps hbumps hstore.touched
  | scrubs docId hgone => exact h.scrubs (touched_removeDocument w.store docId).1
  | configures hstore hphase =>
    exact h.configures hstore hphase fun hmid => hspares hmid
      ((congrArg Option.isSome (backfilling_configured w.store hphase)).trans
        (Bool.and_eq_true_iff.mp hmid).1)
  | readsMeta hupdate hmeta | restoresNothing hupdate hmeta =>
    exact h.waits ⟨by rw [inHand, hupdate], by rw [backfilling, hupdate]⟩ ⟨rfl, rfl⟩ rfl rfl
      fun _ => id
  | restores hupdate =>
    have hphase := hbegun.phase
    rw [hupdate] at hphase
    exact honest_of_lastRead (hbegun.unrestored hphase).lastRead
  | begins hpass =>
    rcases hpass with ⟨rfl, hupdate⟩ | ⟨rfl, hupdate, -⟩
    · exact h.waits ⟨by rw [inHand, hupdate], by rw [backfilling, hupdate]⟩ ⟨rfl, rfl⟩ rfl rfl
        fun _ => id
    · exact h.begins_backfill hordered hupdate
  | fetches hupdate => exact h.fetches hupdate
  | @takes pass item remaining hupdate =>
    refine h.takes hupdate fun hmid => ?_
    obtain rfl := pass_of_midBackfill hupdate hmid
    exact hspares hmid rfl
  | stops hupdate => exact h.stops hordered hupdate
  | completes hupdate => exact h.completes hupdate
  | groups | writes | writesMeta | clears | fails => exact ⟨h.reads, h.held, h.fields, h.unread⟩
  | restarts config => exact honest_of_lastRead fun _ => rfl

/-! ## What the steps do -/

theorem config_seedConfig {feed : ChangeFeed}
    (h : ((feed.getDocument DB_SETUP_DOC_ID).bind setupConfig).any
      (fun config => store.changes (some config)) = false) :
    (store.seedConfig feed).config = store.config := by
  rw [seedConfig]
  cases hconfig : (feed.getDocument DB_SETUP_DOC_ID).bind setupConfig with
  | none => rfl
  | some config =>
    rw [hconfig] at h
    exact congrArg DocumentSummaryStore.config (DocumentSummaryStore.applyConfig_of_not_changes h)

/-- Applying an item that changes no configuration touches its entry alone. -/
theorem touched_applyDocument {item : Item}
    (h : item.docId = DB_SETUP_DOC_ID → store.hasExplicitConfig = false →
      store.changes item.config = false) :
    store.Touched (store.applyDocument env item) item.docId := by
  by_cases hsetup : item.docId = DB_SETUP_DOC_ID
  · have hconfig : (if store.hasExplicitConfig then store else store.applyConfig item.config)
        = store := by
      cases hexplicit : store.hasExplicitConfig with
      | true => rfl
      | false => exact DocumentSummaryStore.applyConfig_of_not_changes (h hsetup hexplicit)
    rw [applyDocument, if_pos hsetup, hconfig]
    exact (touched_removeDocument store item.docId).1
  · cases hdeleted : item.doc.isDeleted with
    | true => exact (applyDocument_deleted store env hsetup hdeleted).1
    | false => exact (applyDocument_live store env hsetup hdeleted).1

theorem config_advanceFlush : w.advanceFlush.store.config = w.store.config := by
  rw [advanceFlush]
  split
  · rfl
  · split <;> rfl
  · rfl

/-- Amid a backfill the configuration stays, unless another one takes effect. -/
theorem config_step {event : SummaryEvent} (hmid : w.backfilling.isSome)
    (hstill : (w.step env event).backfilling.isSome) (h : w.reconfigures event = false) :
    (w.step env event).store.config = w.store.config := by
  obtain ⟨remaining, pending, hupdate⟩ := exists_of_backfilling hmid
  cases event with
  | write docId doc purged =>
    cases purged with
    | true => exact (touched_removeDocument w.store docId).1.config
    | false => rfl
  | hide docId => exact (touched_removeDocument w.store docId).1.config
  | setConfig config => exact config_setConfig h
  | ensureConfigLoaded => rfl
  | configLoaded =>
    change w.configLoaded.store.config = _
    rw [configLoaded]
    cases hloading : w.configLoading with
    | true => exact config_seedConfig (by simpa [reconfigures, hloading] using h)
    | false => rfl
  | startUpdate =>
    change w.startUpdate.store.config = _
    rw [startUpdate, hupdate]
  | advanceUpdate =>
    change (w.advanceUpdate env).store.config = _
    rw [reconfigures, hupdate] at h
    cases pending with
    | some item =>
      rw [advanceUpdate, hupdate]
      cases remaining <;> exact (touched_applyDocument fun hsetup hexplicit => by
        simpa [hsetup, hexplicit] using h).config
    | none =>
      cases remaining with
      | nil =>
        change (w.advanceUpdate env).backfilling.isSome at hstill
        rw [advanceUpdate, hupdate] at hstill
        exact absurd hstill (by simp [endPass, backfilling])
      | cons row remaining =>
        rw [advanceUpdate, hupdate]
        change (w.fetch .backfill row remaining).store.config = _
        rw [fetch]
        split <;> rfl
  | stopUpdate =>
    change w.stopUpdate.store.config = _
    rw [stopUpdate]
    split <;> rfl
  | startFlush =>
    change w.startFlush.store.config = _
    rw [startFlush]
    split
    · split
      · exact config_advanceFlush
      · rfl
    · rfl
  | advanceFlush => exact config_advanceFlush
  | failFlush => rfl
  | restart config => exact absurd hstill (by simp [step, restart, backfilling])

/-- **Every step that spares a backfill keeps coverage honest.** -/
theorem Honest.step (h : w.Honest env) (hordered : w.Ordered) (hbegun : w.Begun)
    {event : SummaryEvent} (hspares : w.SparesBackfill event) : (w.step env event).Honest env := by
  have hconfig : w.midBackfill = true → (w.step env event).backfilling.isSome →
      (w.step env event).store.config = w.store.config := fun hmid hstill =>
    config_step (Bool.and_eq_true_iff.mp hmid).1 hstill (hspares hmid)
  rcases step_moves env hordered.feed event with hsame | hmove |
    ⟨-, w₁, hfirst, hupdate, hstore, -, hsecond⟩
  · exact hsame.symm ▸ h
  · exact h.move hordered hbegun hmove hconfig
  · have hmid : w₁.midBackfill = w.midBackfill := by
      rw [midBackfill, midBackfill, backfilling, backfilling, hupdate, hstore]
    have hfirst' := h.move hordered hbegun hfirst fun _ _ =>
      congrArg DocumentSummaryStore.config hstore
    exact hfirst'.move (hordered.move hfirst) (hbegun.move hfirst) hsecond fun hmid₁ hstill =>
      (hconfig (hmid ▸ hmid₁) hstill).trans (congrArg DocumentSummaryStore.config hstore).symm

/-- What a run keeps of the summary when no step of it changes the configuration amid a backfill. -/
structure Sound (env : ExpressionRuntime) (w : SummaryWorld) : Prop where
  ordered : w.Ordered
  begun : w.Begun
  honest : w.Honest env

theorem sound_new (config : Option SummaryConfig) : Sound env (new config) :=
  ⟨ordered_new config, begun_new config, honest_of_lastRead fun _ => rfl⟩

theorem Sound.step (h : Sound env w) {event : SummaryEvent} (hspares : w.SparesBackfill event) :
    Sound env (w.step env event) :=
  ⟨h.ordered.step event, h.begun.step h.ordered event, h.honest.step h.ordered h.begun hspares⟩

/-- **Full coverage is honest** in every run in which no configuration takes effect amid a
backfill. -/
theorem honestCoverage_run (config : Option SummaryConfig) {events : List SummaryEvent}
    (hspares : AllSteps env SparesBackfill (new config) events) :
    ((new config).run env events).HonestCoverage env :=
  (run_induction (sound_new config) (fun _ _ hsound hstep => hsound.step hstep)
    hspares).honest.honestCoverage

/-- A configuration before the update goes on, and one after it. -/
theorem honestCoverage_reconfigured :
    ((new none).run plainExpressions
        (backfillAhead ++ [.setConfig none] ++ undisturbed)).store.getCoverage = .full
      ∧ ((new none).run plainExpressions
        (backfillAhead ++ [.setConfig none] ++ undisturbed)).HonestCoverage plainExpressions :=
  ⟨by decide +kernel, honestCoverage_run none (by decide +kernel)⟩

/-- The same configuration, once the backfill has taken the first document. -/
def midBackfillRun : List SummaryEvent :=
  backfillAhead ++ .startUpdate :: List.replicate 4 .advanceUpdate ++ [.setConfig none]
    ++ List.replicate 12 .advanceUpdate

/-- **A configuration amid a backfill** leaves what was taken before as it was. -/
theorem not_honestCoverage_midBackfill :
    ¬((new none).run plainExpressions midBackfillRun).HonestCoverage plainExpressions := by
  intro h
  have hcoverage : ((new none).run plainExpressions midBackfillRun).store.getCoverage = .full
      ∧ ((new none).run plainExpressions midBackfillRun).update.isIdle = true := by
    decide +kernel
  have hentry : (((new none).run plainExpressions midBackfillRun).store.entries.get? "a").map
      (fun entry => entry.fields.size) = some 0 := by
    decide +kernel
  have hread : (((new none).run plainExpressions midBackfillRun).lastRead "a").map (fun doc =>
      (extractSummaryFields plainExpressions doc.data
        ((new none).run plainExpressions midBackfillRun).store.config).size) = some 1 := by
    decide +kernel
  obtain ⟨entry, hget, hsize⟩ := map_eq_some_iff.mp hentry
  obtain ⟨doc, hlast, hone⟩ := map_eq_some_iff.mp hread
  have hfields := (h hcoverage.1 (isIdle_iff.mp hcoverage.2) "a" entry doc hget hlast).2
  rw [hfields, hone] at hsize
  exact absurd hsize (by decide)

end SummaryWorld

end MindooDB
