import MindooDB.Summary.Coverage

/-!
# Summary/Tracked — what the main cursor promises

`Tracks`: every document whose row the main cursor has passed has the entry of what it is now, but
for the configuration that its fields were taken by.  A document that changes gets a row beyond the
cursor, so nothing is promised of it until it is read.
-/

namespace MindooDB

open ChangeFeed DocumentSummaryStore List

/-- The sequence number that a cursor stands at. -/
def seqOf (cursor : Option ProcessChangesCursor) : ℕ :=
  (cursor.getD origin).changeSeq

/-- A row of a document that is there. -/
def DocumentIndexEntry.Live (row : DocumentIndexEntry) : Prop :=
  row.accessState = .visible ∧ row.isDeleted = false

/-- **The entry that a row asks for**, but for its fields. -/
def Matches (feed : ChangeFeed) (row : DocumentIndexEntry) : Option DocumentSummaryEntry → Prop
  | none => ¬row.Live
  | some entry => row.Live ∧ entry.docId = row.docId ∧ entry.changeSeq = row.changeSeq ∧
      ∃ doc, feed.documents row.docId = some doc ∧ entry.lastModified = doc.lastModified
        ∧ entry.decryptionKeyId = doc.decryptionKeyId

variable {feed : ChangeFeed} {row : DocumentIndexEntry}

theorem Matches.bumps {feed' : ChangeFeed} {other : DocumentIndexEntry}
    {entry : Option DocumentSummaryEntry} (h : Matches feed other entry)
    (hbumps : Bumps feed feed' row) (hne : other.docId ≠ row.docId) :
    Matches feed' other entry := by
  cases entry with
  | none => exact h
  | some entry =>
    obtain ⟨hlive, hdocId, hseq, doc, hdoc, hrest⟩ := h
    exact ⟨hlive, hdocId, hseq, doc, (hbumps.documents _ hne).trans hdoc, hrest⟩

theorem DocumentIndexEntry.Live.read (h : row.Live) :
    feed.read row = feed.documents row.docId :=
  if_pos h

theorem ChangeFeed.read_of_not_live (h : ¬row.Live) : feed.read row = some row.tombstone :=
  if_neg h

namespace SummaryWorld

variable (w : SummaryWorld)

/-- **The main cursor tracks the feed.** -/
structure Tracks : Prop where
  matching : ∀ row ∈ w.feed.index, row.docId ≠ DB_SETUP_DOC_ID →
    row.changeSeq ≤ seqOf w.store.cursor → Matches w.feed row (w.store.entries.get? row.docId)
  keyed : ∀ {docId entry}, w.store.entries.get? docId = some entry →
    entry.docId = docId ∧ docId ≠ DB_SETUP_DOC_ID ∧ ∃ row ∈ w.feed.index, row.docId = docId
  listed : ∀ c ∈ w.update.queue, ∃ row ∈ w.feed.index, row.docId = c.docId
  moved : ∀ c ∈ w.update.queue, ∀ row ∈ w.feed.index, row.docId = c.docId →
    row.cursor = c ∨ seqOf w.store.cursor < row.changeSeq
  held : ∀ {item}, w.inHand = some item → ∀ row ∈ w.feed.index, row.cursor = item.cursor →
    w.feed.read row = some item.doc

variable {env : ExpressionRuntime} {w} {w' : SummaryWorld}

theorem Ordered.seqOf_lt (h : w.Ordered) {cursor : Option ProcessChangesCursor}
    (hmarks : MarksAll w.feed cursor) : seqOf cursor < w.feed.nextChangeSeq := by
  cases cursor with
  | none => exact h.next
  | some c => exact (hmarks c rfl).below

/-- A summary without entries that has read nothing. -/
theorem tracks_of_empty (hordered : w.Ordered) (hentries : w.store.entries = ∅)
    (hcursor : w.store.cursor = none) (houtside : w.update.Outside) : w.Tracks := by
  have hqueue : w.update.queue = [] := by
    cases hupdate : w.update with
    | iterating => exact (hupdate ▸ houtside : UpdatePhase.Outside (.iterating ..)).elim
    | _ => rfl
  refine ⟨fun row hrow _ hle => ?_, fun hget => ?_, fun c hc => ?_, fun c hc => ?_, fun hitem => ?_⟩
  · rw [hcursor] at hle
    exact absurd (hordered.feed.below row hrow).1 (not_lt.mpr hle)
  · rw [hentries] at hget
    exact nomatch hget
  · exact nomatch (hqueue ▸ hc)
  · exact nomatch (hqueue ▸ hc)
  · exact nomatch (inHand_of_outside houtside).symm.trans hitem

variable {docId : JSString} {lastRead : JSString → Option InternalDoc} {pass : SummaryPass}

theorem get?_of_purged {store store' : DocumentSummaryStore} {other : JSString}
    {entry : DocumentSummaryEntry} (h : store.Purged store' docId)
    (hget : store'.entries.get? other = some entry) : store.entries.get? other = some entry := by
  by_cases heq : other = docId
  · subst heq
    rcases h with rfl | rfl
    · exact hget
    · exact absurd ((touched_removeDocument store other).2.symm.trans hget)
        (by simp)
  · exact (h.touched.others other heq).symm.trans hget

/-- What a row reads stays while its document does. -/
theorem read_of_bumps {feed' : ChangeFeed} {other : DocumentIndexEntry}
    (hbumps : Bumps feed feed' row) (hne : other.docId ≠ row.docId) :
    feed'.read other = feed.read other := by
  rw [ChangeFeed.read, ChangeFeed.read, hbumps.documents _ hne]

theorem Tracks.bumps (h : w.Tracks) (hordered : w.Ordered) {store : DocumentSummaryStore}
    (hbumps : Bumps w.feed feed row) (hstore : w.store.Purged store row.docId) :
    Tracks { w with feed := feed, store := store, lastRead := lastRead } := by
  have hbeyond : seqOf store.cursor < row.changeSeq := by
    rw [hstore.touched.cursor, hbumps.changeSeq]
    exact hordered.seqOf_lt hordered.cursor
  have hrows : ∀ {docId}, (∃ other ∈ w.feed.index, other.docId = docId) →
      ∃ other ∈ feed.index, other.docId = docId := by
    rintro docId ⟨other, hother, rfl⟩
    by_cases heq : other.docId = row.docId
    · exact ⟨row, hbumps.mem_index.mpr (.inl rfl), heq.symm⟩
    · exact ⟨other, hbumps.mem_index.mpr (.inr ⟨hother, heq⟩), rfl⟩
  refine ⟨fun other hother hsetup hle => ?_, fun hget => ?_, fun c hc => hrows (h.listed c hc),
    fun c hc other hother hdocId => ?_, fun {item} hitem other hother hcursor => ?_⟩
  · rcases hbumps.mem_index.mp hother with rfl | ⟨hmem, hne⟩
    · exact absurd hle (not_le.mpr hbeyond)
    · have hold : Matches w.feed other (w.store.entries.get? other.docId) :=
        h.matching other hmem hsetup (hstore.touched.cursor ▸ hle)
      rw [hstore.touched.others _ hne]
      exact hold.bumps hbumps hne
  · obtain ⟨hdocId, hsetup, hrow⟩ := h.keyed (get?_of_purged hstore hget)
    exact ⟨hdocId, hsetup, hrows hrow⟩
  · rcases hbumps.mem_index.mp hother with rfl | ⟨hmem, -⟩
    · exact .inr hbeyond
    · exact (h.moved c hc other hmem hdocId).imp_right fun hlt => hstore.touched.cursor ▸ hlt
  · rcases hbumps.mem_index.mp hother with rfl | ⟨hmem, hne⟩
    · obtain ⟨pass, remaining, hupdate⟩ := exists_of_inHand hitem
      obtain ⟨after, hiter, -⟩ := (hordered.passing hupdate).after
      have hlt : item.cursor.changeSeq < w.feed.nextChangeSeq :=
        (hiter.marks _ mem_cons_self).2.below
      rw [← hcursor, ← hbumps.changeSeq] at hlt
      exact absurd hlt (lt_irrefl _)
    · exact (read_of_bumps hbumps hne).trans (h.held hitem other hmem hcursor)

theorem Tracks.scrubs (h : w.Tracks)
    (hgone : ∀ row ∈ w.feed.index, row.docId = docId → row.accessState = .inaccessible) :
    Tracks { w with store := w.store.removeDocument docId, lastRead := lastRead } := by
  obtain ⟨htouched, hnone⟩ := touched_removeDocument w.store docId
  refine ⟨fun row hrow hsetup hle => ?_, fun hget => h.keyed (get?_of_purged (.inr rfl) hget),
    h.listed, fun c hc row hrow hdocId => ?_, h.held⟩
  · by_cases heq : row.docId = docId
    · rw [heq, hnone]
      intro hlive
      exact nomatch hlive.1.symm.trans (hgone row hrow heq)
    · rw [htouched.others _ heq]
      exact h.matching row hrow hsetup (htouched.cursor ▸ hle)
  · exact (h.moved c hc row hrow hdocId).imp_right fun hlt => htouched.cursor ▸ hlt

/-- A move that leaves the feed, the entries and the main cursor, and adds nothing to what is still
read. -/
theorem Tracks.congr (h : w.Tracks) (hfeed : w'.feed = w.feed)
    (hentries : w'.store.entries = w.store.entries) (hcursor : w'.store.cursor = w.store.cursor)
    (hupdate : w'.update = w.update ∨ w'.update.queue = [] ∧ w'.inHand = none) : w'.Tracks := by
  have hqueue : ∀ c ∈ w'.update.queue, c ∈ w.update.queue := by
    intro c hc
    rcases hupdate with hsame | ⟨hnone, -⟩
    · exact hsame ▸ hc
    · rw [hnone] at hc
      cases hc
  refine ⟨?_, ?_, ?_, ?_, fun {item} hitem => ?_⟩
  · rw [hfeed, hentries, hcursor]
    exact h.matching
  · rw [hfeed, hentries]
    exact h.keyed
  · rw [hfeed]
    exact fun c hc => h.listed c (hqueue c hc)
  · rw [hfeed, hcursor]
    exact fun c hc => h.moved c (hqueue c hc)
  · rcases hupdate with hsame | ⟨-, hnone⟩
    · rw [hfeed]
      refine h.held ?_
      rw [inHand, hsame] at hitem
      exact hitem
    · cases hnone.symm.trans hitem

theorem queue_of_outside {update : UpdatePhase} (h : update.Outside) : update.queue = [] := by
  cases update with
  | iterating => exact h.elim
  | _ => rfl

theorem Tracks.begins (h : w.Tracks) (hordered : w.Ordered) (pass : SummaryPass) :
    (w.beginPass env pass).Tracks := by
  have hrows : ∀ c ∈ (w.feed.rowsSince env.toRuntime (passCursor pass w.store)).map
      DocumentIndexEntry.cursor, ∃ row ∈ w.feed.index, row.cursor = c := by
    intro c hc
    obtain ⟨row, hrow, rfl⟩ := mem_map.mp hc
    exact ⟨row, mem_of_mem_drop hrow, rfl⟩
  refine ⟨h.matching, h.keyed, fun c hc => ?_, fun c hc row hrow hdocId => ?_,
    fun hitem => absurd hitem (by simp [inHand, beginPass])⟩
  · obtain ⟨row, hrow, rfl⟩ := hrows c hc
    exact ⟨row, hrow, rfl⟩
  · obtain ⟨other, hother, rfl⟩ := hrows c hc
    exact .inl (congrArg DocumentIndexEntry.cursor (hordered.feed.eq_of_docId hrow hother hdocId))

variable {remaining : List DocumentIndexEntry}

theorem Tracks.fetches (h : w.Tracks) (hordered : w.Ordered)
    (hupdate : w.update = .iterating pass (row :: remaining) none) :
    (w.fetch pass row remaining).Tracks := by
  have hqueue : w.update.queue = row.cursor :: remaining.map DocumentIndexEntry.cursor := by
    rw [hupdate]
    rfl
  have hlisted := h.listed
  have hmoved := h.moved
  rw [hqueue] at hlisted hmoved
  rw [fetch]
  cases hread : w.feed.read row with
  | none =>
    exact ⟨h.matching, h.keyed, fun c hc => hlisted c (mem_cons_of_mem _ hc),
      fun c hc => hmoved c (mem_cons_of_mem _ hc), fun hitem => absurd hitem (by simp [inHand])⟩
  | some doc =>
    refine ⟨h.matching, h.keyed, hlisted, hmoved, fun hitem other hother hcursor => ?_⟩
    obtain rfl := Option.some.inj hitem
    rw [(hordered.passing hupdate).unmoved row mem_cons_self other hother
      (congrArg ProcessChangesCursor.changeSeq hcursor)]
    exact hread

/-- **Applying what a row reads gives its document the entry that the row asks for.** -/
theorem matches_applyDocument (hordered : w.Ordered) {item : Item}
    (hrow : row ∈ w.feed.index) (hcursor : row.cursor = item.cursor) (hdocId : row.docId = item.docId)
    (hread : w.feed.read row = some item.doc) (hsetup : row.docId ≠ DB_SETUP_DOC_ID) :
    Matches w.feed row ((w.store.applyDocument env item).entries.get? row.docId) := by
  have htells := hordered.feed.tells row hrow
  rw [hdocId] at hsetup ⊢
  by_cases hlive : row.Live
  · rw [hlive.read] at hread
    rw [Tells, hlive.1] at htells
    obtain ⟨doc, hdoc, hdeleted⟩ := htells
    obtain rfl : doc = item.doc := Option.some.inj (hdoc.symm.trans hread)
    rw [(applyDocument_live w.store env hsetup (hdeleted.trans hlive.2)).2]
    exact ⟨hlive, hdocId.symm, (congrArg ProcessChangesCursor.changeSeq hcursor).symm, _, hdoc, rfl,
      rfl⟩
  · rw [read_of_not_live hlive] at hread
    have hdeleted : item.doc.isDeleted = true := by
      rw [← Option.some.inj hread]
      rfl
    rw [(applyDocument_deleted w.store env hsetup hdeleted).2]
    exact hlive

/-- What applying an item leaves of the other entries. -/
theorem get?_take {item : Item} (hne : docId ≠ item.docId) :
    (w.take env pass item remaining).store.entries.get? docId = w.store.entries.get? docId := by
  obtain ⟨store', hstore, htouched, -⟩ := w.store.applyDocument_spec env item
  have happlied := (htouched.others docId hne).trans
    (congrArg (fun entries => entries.get? docId) hstore.entries)
  cases pass <;> exact happlied

theorem entries_take (pass : SummaryPass) (item : Item) (remaining : List DocumentIndexEntry) :
    (w.take env pass item remaining).store.entries = (w.store.applyDocument env item).entries := by
  cases pass <;> rfl

variable (env w) in
/-- The main cursor stays where it was, or is moved to the item. -/
theorem seqOf_take (pass : SummaryPass) (item : Item) (remaining : List DocumentIndexEntry) :
    seqOf (w.take env pass item remaining).store.cursor = seqOf w.store.cursor ∨
      pass = .incremental
        ∧ seqOf (w.take env pass item remaining).store.cursor = item.cursor.changeSeq := by
  obtain ⟨store', hstore, htouched, -⟩ := w.store.applyDocument_spec env item
  cases pass with
  | incremental => exact .inr ⟨rfl, rfl⟩
  | backfill => exact .inl (congrArg seqOf (htouched.cursor.trans hstore.cursor))

/-- **The rows that the main cursor has passed** after an item: its row, and those of other documents
that it had passed before. -/
theorem Tracks.passed_take (h : w.Tracks) (hordered : w.Ordered) {item : Item}
    (hupdate : w.update = .iterating pass remaining (some item)) (hrow : row ∈ w.feed.index)
    (hle : row.changeSeq ≤ seqOf (w.take env pass item remaining).store.cursor) :
    row.cursor = item.cursor ∨ row.docId ≠ item.docId ∧ row.changeSeq ≤ seqOf w.store.cursor := by
  have hpass := hordered.passing hupdate
  obtain ⟨after, hiter, hincremental, -⟩ := hpass.after
  by_cases heq : row.cursor = item.cursor
  · exact .inl heq
  · have hold : row.changeSeq ≤ seqOf w.store.cursor := by
      rcases seqOf_take w env pass item remaining with hsame | ⟨rfl, hitem⟩
      · exact hsame ▸ hle
      · have hpassed := (hiter.passed hrow (hitem ▸ hle)).resolve_right heq
        rwa [hincremental rfl] at hpassed
    refine .inr ⟨fun hdocId => ?_, hold⟩
    have hqueued : item.cursor ∈ w.update.queue := by
      rw [hupdate]
      exact mem_cons_self
    have hmoved := h.moved item.cursor hqueued row hrow (hdocId.trans (hpass.docId item rfl).symm)
    exact absurd hold (not_le.mpr (hmoved.resolve_left heq))

theorem Tracks.takes (h : w.Tracks) (hordered : w.Ordered) {pass : SummaryPass} {item : Item}
    {remaining : List DocumentIndexEntry}
    (hupdate : w.update = .iterating pass remaining (some item)) :
    (w.take env pass item remaining).Tracks := by
  have hpass := hordered.passing hupdate
  obtain ⟨after, hiter, -⟩ := hpass.after
  have hitemDocId : item.cursor.docId = item.docId := hpass.docId item rfl
  have hheld : w.inHand = some item := by rw [inHand, hupdate]
  have hqueue : w.update.queue = item.cursor :: remaining.map DocumentIndexEntry.cursor := by
    rw [hupdate]
    rfl
  refine ⟨fun row hrow hsetup hle => ?_, fun {docId entry} hget => ?_,
    fun c hc => h.listed c (hqueue ▸ mem_cons_of_mem _ hc),
    fun c hc row hrow hdocId => ?_, fun hitem => absurd hitem (by simp [inHand, take])⟩
  · rcases h.passed_take hordered hupdate hrow hle with heq | ⟨hne, hold⟩
    · rw [entries_take]
      exact matches_applyDocument hordered hrow heq
        ((congrArg ProcessChangesCursor.docId heq).trans hitemDocId) (h.held hheld row hrow heq)
        hsetup
    · have hmatch : Matches w.feed row (w.store.entries.get? row.docId) :=
        h.matching row hrow hsetup hold
      rw [get?_take hne]
      exact hmatch
  · by_cases hdocId : docId = item.docId
    · subst hdocId
      rw [entries_take] at hget
      obtain ⟨store', -, -, hitem⟩ := w.store.applyDocument_spec env item
      obtain ⟨row, hrow, hrowDocId⟩ := h.listed item.cursor (hqueue ▸ mem_cons_self)
      refine ⟨?_, fun hsetup => ?_, row, hrow, hrowDocId.trans hitemDocId⟩
      · rw [hitem entry hget]
        rfl
      · obtain ⟨-, -, -, hnone⟩ := applyDocument_setup w.store env hsetup
        cases hnone.symm.trans hget
    · exact h.keyed ((get?_take hdocId).symm.trans hget)
  · refine (h.moved c (hqueue ▸ mem_cons_of_mem _ hc) row hrow hdocId).imp_right fun hbeyond => ?_
    rcases seqOf_take w env pass item remaining with hsame | ⟨rfl, hitem⟩
    · exact hsame ▸ hbeyond
    · rw [hitem]
      exact (rel_of_pairwise_cons hiter.sorted hc).trans_le
        (hiter.notBefore c (mem_cons_of_mem _ hc) row hrow hdocId)

/-- **Every move but one keeps track of the feed**; what is restored has to be looked at. -/
theorem Tracks.move (h : w.Tracks) (hordered : w.Ordered) (hmove : Move env w w')
    (hrestores : ∀ payload, w.update = .restoringBuckets payload → (w.restore payload).Tracks) :
    w'.Tracks := by
  have hordered' := hordered.move hmove
  cases hmove with
  | bumps hbumps hstore => exact h.bumps hordered hbumps hstore
  | scrubs docId hgone => exact h.scrubs hgone
  | configures hstore hphase =>
    refine h.congr rfl hstore.entries hstore.cursor ?_
    rcases hphase with rfl | ⟨-, hfits⟩
    · exact .inl rfl
    · exact .inr ⟨queue_of_outside hfits.outside, inHand_of_outside hfits.outside⟩
  | readsMeta | restoresNothing => exact h.congr rfl rfl rfl (.inr ⟨rfl, rfl⟩)
  | restores hupdate => exact hrestores _ hupdate
  | begins => exact h.begins hordered _
  | fetches hupdate => exact h.fetches hordered hupdate
  | takes hupdate => exact h.takes hordered hupdate
  | stops | completes => exact h.congr rfl rfl rfl (.inr ⟨rfl, rfl⟩)
  | groups | writes | writesMeta | clears | fails => exact h.congr rfl rfl rfl (.inl rfl)
  | restarts config => exact tracks_of_empty hordered' rfl rfl trivial

end SummaryWorld

end MindooDB
