import MindooDB.Lib.ScanFeed
import MindooDB.View.Entry

/-!
# Summary/Feed — the changefeed of a database

The index part of `core/BaseMindooDB.ts`: `updateIndex`, `getStartIndexForCursor`, `getDocument` and
`iterateChangesSince`.  Every change of a document gives its row a new sequence number, so the rows
after a cursor are those with a greater number (`Indexed.rowsSince_eq`).

What the store and the caches hold of a document is `documents`; writing a document and bumping its
row is one event, and so is losing its key.
-/

namespace MindooDB

open List

inductive DocumentAccessState where
  | visible
  | inaccessible
  deriving DecidableEq

structure DocumentIndexEntry where
  docId : JSString
  changeSeq : ℕ
  lastModified : ℚ
  isDeleted : Bool
  decryptionKeyId : JSString
  accessState : DocumentAccessState
  awaitingWitness : Bool := false
  witnessed : Bool := false
  deriving DecidableEq

/-- A document as its readers find it. -/
structure InternalDoc where
  data : ColumnValues
  createdAt : ℚ
  lastModified : ℚ
  decryptionKeyId : JSString
  isDeleted : Bool
  awaitingWitness : Bool := false
  witnessed : Bool := false

/-- How far a reader of the index is. -/
structure ProcessChangesCursor where
  changeSeq : ℕ
  docId : JSString
  deriving DecidableEq

/-- The index, and the documents it lists. -/
structure ChangeFeed where
  index : List DocumentIndexEntry := []
  nextChangeSeq : ℕ := 1
  documents : JSString → Option InternalDoc := fun _ => none

variable (env : Runtime)

/-- `compareIndexEntries`, on sequence number and id. -/
def compareIndexEntries (a b : ProcessChangesCursor) : ℤ :=
  if a.changeSeq ≠ b.changeSeq then (a.changeSeq : ℤ) - b.changeSeq
  else env.localeCompare a.docId b.docId

/-- The position of a row in the feed. -/
def DocumentIndexEntry.cursor (row : DocumentIndexEntry) : ProcessChangesCursor :=
  ⟨row.changeSeq, row.docId⟩

namespace ChangeFeed

variable (feed : ChangeFeed)

/-- Where the feed begins. -/
def origin : ProcessChangesCursor := ⟨0, ""⟩

def getStartIndexForCursor (cursor : ProcessChangesCursor) : ℕ :=
  let startIndex := ScanFeed.bisect
    (fun row : DocumentIndexEntry => decide (0 ≤ compareIndexEntries env cursor row.cursor))
    feed.index
  if (feed.index[startIndex]?).any fun row => row.cursor = cursor then startIndex + 1
  else startIndex

/-- The rows that an iteration since a cursor goes through. -/
def rowsSince (cursor : Option ProcessChangesCursor) : List DocumentIndexEntry :=
  feed.index.drop (feed.getStartIndexForCursor env (cursor.getD origin))

/-- A row with the next sequence number. -/
def newRow (row : DocumentIndexEntry) : DocumentIndexEntry :=
  { row with changeSeq := feed.nextChangeSeq }

/-- Put a row where its sequence number belongs, in place of the document's old one. -/
def updateIndex (row : DocumentIndexEntry) (forceChangeSeqBump : Bool) : ChangeFeed :=
  if !forceChangeSeqBump && feed.index.any (fun existing =>
      decide (feed.newRow existing = feed.newRow row)) then feed
  else
    let index := feed.index.eraseP fun existing => decide (existing.docId = row.docId)
    let insertIndex := ScanFeed.bisect
      (fun existing : DocumentIndexEntry =>
        decide (0 ≤ compareIndexEntries env (feed.newRow row).cursor existing.cursor)) index
    { feed with
      index := index.insertIdx insertIndex (feed.newRow row)
      nextChangeSeq := feed.nextChangeSeq + 1 }

/-- What the index says of a document that was just written. -/
def writtenRow (docId : JSString) (doc : InternalDoc) : DocumentIndexEntry where
  docId := docId
  changeSeq := 0
  lastModified := doc.lastModified
  isDeleted := doc.isDeleted
  decryptionKeyId := doc.decryptionKeyId
  accessState := .visible
  awaitingWitness := doc.awaitingWitness
  witnessed := doc.witnessed

/-- What it says of one whose key was lost. -/
def hiddenRow (docId : JSString) (existing : DocumentIndexEntry) : DocumentIndexEntry where
  docId := docId
  changeSeq := 0
  lastModified := existing.lastModified
  isDeleted := true
  decryptionKeyId := existing.decryptionKeyId
  accessState := .inaccessible

/-- A document is created, changed, deleted, synced, or becomes readable. -/
def write (docId : JSString) (doc : InternalDoc) : ChangeFeed :=
  { feed with documents := Function.update feed.documents docId (some doc) }.updateIndex env
    (writtenRow docId doc) true

/-- The key of a document is lost: what was read of it is purged and its row becomes a tombstone. -/
def hide (docId : JSString) : ChangeFeed :=
  match feed.index.find? fun row => decide (row.docId = docId) with
  | none => feed
  | some existing =>
    if existing.accessState = .inaccessible then feed
    else
      { feed with documents := Function.update feed.documents docId none }.updateIndex env
        (hiddenRow docId existing) false

/-- `getDocument`; `none` where it throws. -/
def getDocument (docId : JSString) : Option InternalDoc :=
  (feed.documents docId).filter fun doc => !doc.isDeleted

end ChangeFeed

/-- What an iteration hands out for a row that is deleted or inaccessible. -/
def DocumentIndexEntry.tombstone (row : DocumentIndexEntry) : InternalDoc where
  data := ∅
  createdAt := 0
  lastModified := row.lastModified
  decryptionKeyId := row.decryptionKeyId
  isDeleted := true

namespace ChangeFeed

/-- **What an iteration hands out for a row**; `none` where it goes on to the next. -/
def read (feed : ChangeFeed) (row : DocumentIndexEntry) : Option InternalDoc :=
  if row.accessState = .visible ∧ row.isDeleted = false then feed.documents row.docId
  else some row.tombstone

/-- The row of a document tells whether it can be read. -/
def Tells (documents : JSString → Option InternalDoc) (row : DocumentIndexEntry) : Prop :=
  match row.accessState with
  | .visible => ∃ doc, documents row.docId = some doc ∧ doc.isDeleted = row.isDeleted
  | .inaccessible => documents row.docId = none

/-- An index in order: one row for each document, sorted by number. -/
structure Indexed (feed : ChangeFeed) : Prop where
  sorted : feed.index.Pairwise fun a b => a.changeSeq < b.changeSeq
  below : ∀ row ∈ feed.index, 0 < row.changeSeq ∧ row.changeSeq < feed.nextChangeSeq
  distinct : (feed.index.map (·.docId)).Nodup

/-- **A feed in order**: its rows tell of its documents. -/
structure InOrder (feed : ChangeFeed) : Prop extends Indexed feed where
  tells : ∀ row ∈ feed.index, Tells feed.documents row
  listed : ∀ docId doc, feed.documents docId = some doc → ∃ row ∈ feed.index, row.docId = docId

/-- A cursor that stands at a row of the feed, or where one stood. -/
structure Marks (feed : ChangeFeed) (cursor : ProcessChangesCursor) : Prop where
  below : cursor.changeSeq < feed.nextChangeSeq
  docId : ∀ row ∈ feed.index, row.changeSeq = cursor.changeSeq → row.docId = cursor.docId

variable {env : Runtime} {feed : ChangeFeed}

theorem inOrder_empty : InOrder {} :=
  ⟨⟨List.Pairwise.nil, by simp, nodup_nil⟩, by simp, nofun⟩

theorem Indexed.marks_origin (h : feed.Indexed) (hnext : 0 < feed.nextChangeSeq) :
    feed.Marks origin :=
  ⟨hnext, fun row hrow hseq => absurd hseq (h.below row hrow).1.ne'⟩

theorem Indexed.eq_of_docId (h : feed.Indexed) {a b : DocumentIndexEntry} (ha : a ∈ feed.index)
    (hb : b ∈ feed.index) (hab : a.docId = b.docId) : a = b :=
  inj_on_of_nodup_map h.distinct ha hb hab

theorem Indexed.eq_of_changeSeq (h : feed.Indexed) {a b : DocumentIndexEntry} (ha : a ∈ feed.index)
    (hb : b ∈ feed.index) (hab : a.changeSeq = b.changeSeq) : a = b :=
  inj_on_of_nodup_map (pairwise_map.mpr (h.sorted.imp fun hlt => hlt.ne)) ha hb hab

/-! ## The rows since a cursor -/

theorem compareIndexEntries_of_lt {a b : ProcessChangesCursor} (h : a.changeSeq < b.changeSeq) :
    compareIndexEntries env a b < 0 := by
  rw [compareIndexEntries, if_pos h.ne]
  omega

theorem compareIndexEntries_of_gt {a b : ProcessChangesCursor} (h : b.changeSeq < a.changeSeq) :
    0 < compareIndexEntries env a b := by
  rw [compareIndexEntries, if_pos h.ne']
  omega

/-- The rows that are not before a cursor. -/
theorem Indexed.drop_bisect (h : feed.Indexed) (cursor : ProcessChangesCursor) :
    feed.index.drop (ScanFeed.bisect (fun row : DocumentIndexEntry =>
        decide (0 ≤ compareIndexEntries env cursor row.cursor)) feed.index)
      = feed.index.filter fun row => !decide (0 ≤ compareIndexEntries env cursor row.cursor) := by
  refine ScanFeed.drop_bisect (h.sorted.imp fun {a b} hlt hb => ?_)
  rw [decide_eq_true_eq] at hb ⊢
  have hle : b.changeSeq ≤ cursor.changeSeq := by
    by_contra hgt
    have hneg : compareIndexEntries env cursor b.cursor < 0 :=
      compareIndexEntries_of_lt (not_le.mp hgt)
    omega
  exact (compareIndexEntries_of_gt (hlt.trans_le hle)).le

variable {cursor : Option ProcessChangesCursor} {rows : List DocumentIndexEntry}

/-- A row after a cursor is gone through. -/
theorem Indexed.mem_rowsSince (h : feed.Indexed)
    {row : DocumentIndexEntry} (hrow : row ∈ feed.index)
    (hafter : compareIndexEntries env (cursor.getD origin) row.cursor < 0)
    (hne : row.cursor ≠ cursor.getD origin) : row ∈ feed.rowsSince env cursor := by
  have hmem : row ∈ feed.index.drop (ScanFeed.bisect (fun row : DocumentIndexEntry =>
      decide (0 ≤ compareIndexEntries env (cursor.getD origin) row.cursor)) feed.index) := by
    rw [h.drop_bisect]
    exact mem_filter.mpr ⟨hrow, by simpa using hafter⟩
  rw [rowsSince, getStartIndexForCursor]
  split
  · rename_i hat
    obtain ⟨first, hfirst, hcursor⟩ := (Option.any_eq_true _ _).mp hat
    rw [← head?_drop] at hfirst
    obtain ⟨rest, hrest⟩ := head?_eq_some_iff.mp hfirst
    rw [hrest] at hmem
    rw [← tail_drop, hrest]
    refine (mem_cons.mp hmem).resolve_left fun heq => hne ?_
    rw [heq]
    exact of_decide_eq_true hcursor
  · exact hmem

/-- **The rows after a cursor are those of a greater number.** -/
theorem Indexed.drop_eq (h : feed.Indexed) {cursor : ProcessChangesCursor}
    (hmarks : feed.Marks cursor) : feed.index.drop (feed.getStartIndexForCursor env cursor)
      = feed.index.filter fun row => decide (cursor.changeSeq < row.changeSeq) := by
  let p : DocumentIndexEntry → Bool := fun row =>
    decide (0 ≤ compareIndexEntries env cursor row.cursor)
  have hafter : ∀ {row : DocumentIndexEntry}, cursor.changeSeq < row.changeSeq → ¬p row := by
    intro row hlt
    have hneg : compareIndexEntries env cursor row.cursor < 0 := compareIndexEntries_of_lt hlt
    simpa [p] using hneg
  have hbefore : ∀ {row : DocumentIndexEntry}, row.changeSeq < cursor.changeSeq → p row := by
    intro row hgt
    have hpos : 0 < compareIndexEntries env cursor row.cursor := compareIndexEntries_of_gt hgt
    simpa [p] using hpos.le
  have hdrop : feed.index.drop (ScanFeed.bisect p feed.index) = feed.index.filter fun row => !p row :=
    h.drop_bisect cursor
  have hget : feed.index[ScanFeed.bisect p feed.index]?
      = (feed.index.filter fun row => !p row).head? := by
    rw [← hdrop, head?_drop]
  have hcursor : ∀ row ∈ feed.index,
      row.cursor = cursor ↔ row.changeSeq = cursor.changeSeq := fun row hrow =>
    ⟨fun heq => congrArg ProcessChangesCursor.changeSeq heq, fun heq =>
      congrArg₂ ProcessChangesCursor.mk heq (hmarks.docId row hrow heq)⟩
  rw [getStartIndexForCursor]
  change feed.index.drop (if (feed.index[ScanFeed.bisect p feed.index]?).any
    fun row => row.cursor = cursor then _ else _) = _
  rw [hget]
  cases hrest : feed.index.filter fun row => !p row with
  | nil =>
    rw [if_neg (by simp), hdrop, hrest]
    refine (filter_eq_nil_iff.mpr fun row hrow hlt => ?_).symm
    have hkept : row ∈ feed.index.filter fun row => !p row :=
      mem_filter.mpr ⟨hrow, by simpa using hafter (of_decide_eq_true hlt)⟩
    exact nomatch (hrest ▸ hkept)
  | cons first rest =>
    have hsorted : (first :: rest).Pairwise fun a b => a.changeSeq < b.changeSeq :=
      hrest ▸ h.sorted.filter _
    have hmem : ∀ row ∈ first :: rest, row ∈ feed.index := fun row hrow =>
      mem_of_mem_filter (hrest ▸ hrow)
    have hfilter : feed.index.filter (fun row => decide (cursor.changeSeq < row.changeSeq))
        = (first :: rest).filter fun row => decide (cursor.changeSeq < row.changeSeq) := by
      rw [← hrest, filter_filter]
      refine filter_congr fun row _ => ?_
      by_cases hlt : cursor.changeSeq < row.changeSeq
      · simp [hlt, hafter hlt]
      · simp [hlt]
    have hfirst : cursor.changeSeq ≤ first.changeSeq := by
      have hnot : ¬p first := by
        have hkept : first ∈ feed.index.filter fun row => !p row := hrest ▸ mem_cons_self
        simpa using (mem_filter.mp hkept).2
      exact not_lt.mp fun hgt => hnot (hbefore hgt)
    have hrestAfter : ∀ row ∈ rest, cursor.changeSeq < row.changeSeq := fun row hrow =>
      hfirst.trans_lt (rel_of_pairwise_cons hsorted hrow)
    rw [hfilter, filter_cons, filter_eq_self.mpr fun row hrow => by
      simpa using hrestAfter row hrow]
    by_cases heq : first.changeSeq = cursor.changeSeq
    · rw [if_pos (by simpa using (hcursor first (hmem first mem_cons_self)).mpr heq),
        if_neg (by simp [heq]), ← tail_drop, hdrop, hrest]
      rfl
    · rw [if_neg (by simpa using mt (hcursor first (hmem first mem_cons_self)).mp heq),
        if_pos (by simpa using lt_of_le_of_ne hfirst (Ne.symm heq)), hdrop, hrest]

/-- …so these are the rows an iteration goes through. -/
theorem Indexed.rowsSince_eq (h : feed.Indexed) (hnext : 0 < feed.nextChangeSeq)
    (hmarks : ∀ c ∈ cursor, feed.Marks c) :
    feed.rowsSince env cursor
      = feed.index.filter fun row => decide ((cursor.getD origin).changeSeq < row.changeSeq) := by
  refine h.drop_eq ?_
  cases cursor with
  | none => exact h.marks_origin hnext
  | some c => exact hmarks c rfl

/-! ## What a change does -/

theorem eraseP_eq_filter {index : List DocumentIndexEntry} (h : (index.map (·.docId)).Nodup)
    {docId : JSString} : index.eraseP (fun row => decide (row.docId = docId))
      = index.filter fun row => decide (row.docId ≠ docId) := by
  induction index with
  | nil => rfl
  | cons row index ih =>
    rw [map_cons, nodup_cons] at h
    by_cases heq : row.docId = docId
    · rw [eraseP_cons_of_pos (by simpa using heq), filter_cons_of_neg (by simpa using heq)]
      refine (filter_eq_self.mpr fun other hother => ?_).symm
      exact decide_eq_true fun hsame =>
        h.1 (mem_map.mpr ⟨other, hother, hsame.trans heq.symm⟩)
    · rw [eraseP_cons_of_neg (by simpa using heq), filter_cons_of_pos (by simpa using heq),
        ih h.2]

/-- An update to the present state changes nothing. -/
theorem updateIndex_eq_self {row : DocumentIndexEntry} {force : Bool}
    (hsame : ¬(force = true ∨ ∀ existing ∈ feed.index, feed.newRow existing ≠ feed.newRow row)) :
    feed.updateIndex env row force = feed := by
  rw [updateIndex, if_pos]
  push Not at hsame
  simpa using hsame

/-- **An update that is none of the present state** puts the row at the end. -/
theorem Indexed.updateIndex_eq (h : feed.Indexed) (row : DocumentIndexEntry) {force : Bool}
    (hchange : force = true ∨ ∀ existing ∈ feed.index,
      feed.newRow existing ≠ feed.newRow row) :
    feed.updateIndex env row force
      = { feed with
          index := feed.index.filter (fun existing => decide (existing.docId ≠ row.docId))
            ++ [feed.newRow row]
          nextChangeSeq := feed.nextChangeSeq + 1 } := by
  have hskip : ¬(!force && feed.index.any fun existing =>
      decide (feed.newRow existing = feed.newRow row)) = true := by
    rcases hchange with rfl | hchange
    · simp
    · simpa using fun _ => hchange
  have hbefore : ∀ existing ∈ feed.index.filter fun existing =>
      decide (existing.docId ≠ row.docId),
      decide (0 ≤ compareIndexEntries env (feed.newRow row).cursor existing.cursor) = true := by
    intro existing hmem
    have hlt := (h.below existing (mem_of_mem_filter hmem)).2
    have hpos : 0 < compareIndexEntries env (feed.newRow row).cursor existing.cursor :=
      compareIndexEntries_of_gt hlt
    simpa using hpos.le
  have hinsert : ∀ index : List DocumentIndexEntry,
      index.insertIdx index.length (feed.newRow row) = index ++ [feed.newRow row] := fun index => by
    simp
  rw [updateIndex]
  change (if (!force && feed.index.any fun existing =>
    decide (feed.newRow existing = feed.newRow row)) = true then _
    else _) = _
  rw [if_neg hskip, eraseP_eq_filter h.distinct]
  refine congrArg (fun index =>
    { feed with index := index, nextChangeSeq := feed.nextChangeSeq + 1 }) ?_
  rw [ScanFeed.bisect_eq_length hbefore, hinsert]

/-- **A document gets a new row**, at the end of the feed. -/
structure Bumps (feed feed' : ChangeFeed) (row : DocumentIndexEntry) : Prop where
  index : feed'.index = feed.index.filter (fun existing => decide (existing.docId ≠ row.docId))
    ++ [row]
  changeSeq : row.changeSeq = feed.nextChangeSeq
  next : feed'.nextChangeSeq = feed.nextChangeSeq + 1
  documents : ∀ docId, docId ≠ row.docId → feed'.documents docId = feed.documents docId
  tells : Tells feed'.documents row

variable (env) in
theorem Indexed.write (h : feed.Indexed) (docId : JSString) (doc : InternalDoc) :
    ∃ row, row.docId = docId ∧ Bumps feed (feed.write env docId doc) row := by
  have hindexed : Indexed { feed with
      documents := Function.update feed.documents docId (some doc) } :=
    ⟨h.sorted, h.below, h.distinct⟩
  refine ⟨feed.newRow (writtenRow docId doc), rfl, ?_⟩
  rw [ChangeFeed.write, hindexed.updateIndex_eq (writtenRow docId doc) (.inl rfl)]
  exact ⟨rfl, rfl, rfl, fun other hother => Function.update_of_ne hother _ _,
    doc, Function.update_self .., rfl⟩

variable (env) in
/-- Losing a key gives the document a new row, if it had one that can be read. -/
theorem Indexed.hide (h : feed.Indexed) (docId : JSString) :
    (feed.hide env docId = feed ∧
        ∀ row ∈ feed.index, row.docId = docId → row.accessState = .inaccessible) ∨
      ∃ row, row.docId = docId ∧ Bumps feed (feed.hide env docId) row := by
  cases hfind : feed.index.find? fun row => decide (row.docId = docId) with
  | none =>
    refine .inl ⟨by simp only [ChangeFeed.hide, hfind], fun row hrow hdocId => ?_⟩
    exact absurd (decide_eq_true hdocId) (find?_eq_none.mp hfind row hrow)
  | some existing =>
    have hdocId : existing.docId = docId := by simpa using find?_some hfind
    have hexisting : ∀ row ∈ feed.index, row.docId = docId → row = existing := fun row hrow heq =>
      h.eq_of_docId hrow (mem_of_find?_eq_some hfind) (heq.trans hdocId.symm)
    by_cases hhidden : existing.accessState = .inaccessible
    · exact .inl ⟨by simp only [ChangeFeed.hide, hfind, if_pos hhidden],
        fun row hrow heq => hexisting row hrow heq ▸ hhidden⟩
    · have hindexed : Indexed { feed with
          documents := Function.update feed.documents docId none } :=
        ⟨h.sorted, h.below, h.distinct⟩
      have hnew : ∀ row ∈ feed.index,
          feed.newRow row ≠ feed.newRow (hiddenRow docId existing) := by
        intro row hrow heq
        rw [hexisting row hrow (congrArg DocumentIndexEntry.docId heq)] at heq
        exact hhidden (congrArg DocumentIndexEntry.accessState heq)
      refine .inr ⟨feed.newRow (hiddenRow docId existing), rfl, ?_⟩
      simp only [ChangeFeed.hide, hfind, if_neg hhidden]
      rw [hindexed.updateIndex_eq (hiddenRow docId existing) (.inr hnew)]
      exact ⟨rfl, rfl, rfl, fun other hother => Function.update_of_ne hother _ _,
        Function.update_self ..⟩

variable {feed' : ChangeFeed} {row : DocumentIndexEntry}

theorem Bumps.mem_index (h : Bumps feed feed' row) {other : DocumentIndexEntry} :
    other ∈ feed'.index ↔ other = row ∨ other ∈ feed.index ∧ other.docId ≠ row.docId := by
  rw [h.index, mem_append, mem_filter, mem_singleton, decide_eq_true_iff, or_comm]

/-- The index stays in order. -/
theorem Indexed.bump (h : feed.Indexed) (hnext : 0 < feed.nextChangeSeq)
    (hindex : feed'.index = feed.index.filter (fun existing => decide (existing.docId ≠ row.docId))
      ++ [row]) (hseq : row.changeSeq = feed.nextChangeSeq)
    (hnext' : feed'.nextChangeSeq = feed.nextChangeSeq + 1) : feed'.Indexed := by
  have hold : ∀ {other}, other ∈ feed.index.filter (fun existing =>
      decide (existing.docId ≠ row.docId)) → other ∈ feed.index ∧ other.docId ≠ row.docId :=
    fun hmem => ⟨mem_of_mem_filter hmem, of_decide_eq_true (mem_filter.mp hmem).2⟩
  refine ⟨?_, fun other hother => ?_, ?_⟩
  · rw [hindex, pairwise_append]
    refine ⟨h.sorted.filter _, pairwise_singleton _ _, fun a ha b hb => ?_⟩
    rw [mem_singleton.mp hb, hseq]
    exact (h.below a (hold ha).1).2
  · rw [hnext']
    rw [hindex, mem_append, mem_singleton] at hother
    rcases hother with hmem | rfl
    · obtain ⟨hpos, hlt⟩ := h.below other (hold hmem).1
      exact ⟨hpos, hlt.trans (Nat.lt_succ_self _)⟩
    · rw [hseq]
      exact ⟨hnext, Nat.lt_succ_self _⟩
  · rw [hindex, map_append, nodup_append]
    refine ⟨(h.distinct.sublist (filter_sublist.map _)), nodup_singleton _, ?_⟩
    intro a ha b hb hab
    obtain ⟨other, hmem, rfl⟩ := mem_map.mp ha
    exact (hold hmem).2 (hab.trans (mem_singleton.mp hb))

variable (env) in
/-- …after every update. -/
theorem Indexed.updateIndex (h : feed.Indexed) (hnext : 0 < feed.nextChangeSeq)
    (row : DocumentIndexEntry) (force : Bool) : (feed.updateIndex env row force).Indexed := by
  by_cases hchange : force = true ∨ ∀ existing ∈ feed.index, feed.newRow existing ≠ feed.newRow row
  · have heq : feed.updateIndex env row force = _ := h.updateIndex_eq row hchange
    have hindex : (feed.updateIndex env row force).index
        = feed.index.filter (fun existing => decide (existing.docId ≠ (feed.newRow row).docId))
          ++ [feed.newRow row] := congrArg ChangeFeed.index heq
    exact h.bump hnext hindex rfl (congrArg ChangeFeed.nextChangeSeq heq)
  · rw [updateIndex_eq_self hchange]
    exact h

theorem Bumps.inOrder (hbumps : Bumps feed feed' row) (h : feed.InOrder)
    (hnext : 0 < feed.nextChangeSeq) : feed'.InOrder := by
  refine ⟨h.toIndexed.bump hnext hbumps.index hbumps.changeSeq hbumps.next,
    fun other hother => ?_, fun docId doc hdoc => ?_⟩
  · rcases hbumps.mem_index.mp hother with rfl | ⟨hmem, hne⟩
    · exact hbumps.tells
    · have htells := h.tells other hmem
      rw [Tells] at htells ⊢
      rwa [hbumps.documents _ hne]
  · by_cases hdocId : docId = row.docId
    · exact ⟨row, hbumps.mem_index.mpr (.inl rfl), hdocId.symm⟩
    · rw [hbumps.documents _ hdocId] at hdoc
      obtain ⟨other, hmem, rfl⟩ := h.listed docId doc hdoc
      exact ⟨other, hbumps.mem_index.mpr (.inr ⟨hmem, hdocId⟩), rfl⟩

theorem Bumps.marks (hbumps : Bumps feed feed' row) {cursor : ProcessChangesCursor}
    (h : feed.Marks cursor) : feed'.Marks cursor := by
  refine ⟨h.below.trans (hbumps.next ▸ Nat.lt_succ_self _), fun other hother hseq => ?_⟩
  rcases hbumps.mem_index.mp hother with rfl | ⟨hmem, -⟩
  · exact absurd (hbumps.changeSeq.symm.trans hseq) h.below.ne'
  · exact h.docId other hmem hseq

/-! ## What is still to come of an iteration -/

/-- **The positions that an iteration still goes through**, after a number, in a snapshot of the
index. -/
structure Iterating (feed : ChangeFeed) (after : ℕ) (queue : List ProcessChangesCursor) : Prop where
  sorted : queue.Pairwise fun a b => a.changeSeq < b.changeSeq
  marks : ∀ c ∈ queue, after < c.changeSeq ∧ feed.Marks c
  notBefore : ∀ c ∈ queue, ∀ row ∈ feed.index, row.docId = c.docId → c.changeSeq ≤ row.changeSeq
  complete : ∀ row ∈ feed.index, after < row.changeSeq →
    row.cursor ∈ queue ∨ ∀ c ∈ queue, c.changeSeq < row.changeSeq

/-- Rows of a snapshot: each is still there as it was, or has moved. -/
def Unmoved (feed : ChangeFeed) (rows : List DocumentIndexEntry) : Prop :=
  ∀ row ∈ rows, ∀ other ∈ feed.index, other.changeSeq = row.changeSeq → other = row

theorem Indexed.marks (h : feed.Indexed) {row : DocumentIndexEntry} (hrow : row ∈ feed.index) :
    feed.Marks row.cursor :=
  ⟨(h.below row hrow).2, fun _ hother hseq =>
    congrArg DocumentIndexEntry.docId (h.eq_of_changeSeq hother hrow hseq)⟩

theorem Indexed.unmoved (h : feed.Indexed)
    (hrows : ∀ row ∈ rows, row ∈ feed.index) : feed.Unmoved rows :=
  fun row hrow _ hother hseq => h.eq_of_changeSeq hother (hrows row hrow) hseq

variable (env) in
/-- **An iteration begins with all rows after its cursor.** -/
theorem Indexed.iterating (h : feed.Indexed) (hnext : 0 < feed.nextChangeSeq)
    (hmarks : ∀ c ∈ cursor, feed.Marks c) :
    feed.Iterating (cursor.getD origin).changeSeq
        ((feed.rowsSince env cursor).map DocumentIndexEntry.cursor)
      ∧ feed.Unmoved (feed.rowsSince env cursor) := by
  rw [h.rowsSince_eq hnext hmarks]
  refine ⟨⟨pairwise_map.mpr (h.sorted.filter _), fun c hc => ?_, fun c hc row hrow hdocId => ?_,
    fun row hrow hafter => .inl ?_⟩, h.unmoved fun row hrow => mem_of_mem_filter hrow⟩
  · obtain ⟨row, hrow, rfl⟩ := mem_map.mp hc
    obtain ⟨hmem, hafter⟩ := mem_filter.mp hrow
    exact ⟨of_decide_eq_true hafter, h.marks hmem⟩
  · obtain ⟨other, hother, rfl⟩ := mem_map.mp hc
    exact (congrArg DocumentIndexEntry.changeSeq
      (h.eq_of_docId hrow (mem_of_mem_filter hother) hdocId)).ge
  · exact mem_map.mpr ⟨row, mem_filter.mpr ⟨hrow, decide_eq_true hafter⟩, rfl⟩

variable {after : ℕ} {queue : List ProcessChangesCursor} {c : ProcessChangesCursor}

/-- **An iteration goes on over a change**: the new row comes after all of its snapshot. -/
theorem Iterating.bumps (h : feed.Iterating after queue) (hbumps : Bumps feed feed' row) :
    feed'.Iterating after queue where
  sorted := h.sorted
  marks c hc := ⟨(h.marks c hc).1, hbumps.marks (h.marks c hc).2⟩
  notBefore c hc other hother hdocId := by
    rcases hbumps.mem_index.mp hother with rfl | ⟨hmem, -⟩
    · exact hbumps.changeSeq ▸ (h.marks c hc).2.below.le
    · exact h.notBefore c hc other hmem hdocId
  complete other hother hafter := by
    rcases hbumps.mem_index.mp hother with rfl | ⟨hmem, -⟩
    · exact .inr fun c hc => hbumps.changeSeq ▸ (h.marks c hc).2.below
    · exact h.complete other hmem hafter

theorem Unmoved.bumps (h : feed.Unmoved rows)
    (hbelow : ∀ row ∈ rows, row.changeSeq < feed.nextChangeSeq) (hbumps : Bumps feed feed' row) :
    feed'.Unmoved rows := by
  intro old hold other hother hseq
  rcases hbumps.mem_index.mp hother with rfl | ⟨hmem, -⟩
  · exact absurd (hbumps.changeSeq.symm.trans hseq) (hbelow old hold).ne'
  · exact h old hold other hmem hseq

section

variable (h : feed.Iterating after (c :: queue))

include h

/-- The first position is passed. -/
theorem Iterating.pass :
    feed.Iterating c.changeSeq queue where
  sorted := h.sorted.of_cons
  marks other hother :=
    ⟨rel_of_pairwise_cons h.sorted hother, (h.marks other (mem_cons_of_mem _ hother)).2⟩
  notBefore other hother := h.notBefore other (mem_cons_of_mem _ hother)
  complete row hrow hafter := by
    have hpassed := (h.marks c mem_cons_self).1.trans hafter
    rcases h.complete row hrow hpassed with hmem | hall
    · rcases mem_cons.mp hmem with heq | hmem
      · exact absurd (heq ▸ hafter) (lt_irrefl _)
      · exact .inl hmem
    · exact .inr fun other hother => hall other (mem_cons_of_mem _ hother)

/-- …so what it has passed is what it had, and that row. -/
theorem Iterating.passed {row : DocumentIndexEntry} (hrow : row ∈ feed.index)
    (hle : row.changeSeq ≤ c.changeSeq) :
    row.changeSeq ≤ after ∨ row.cursor = c := by
  by_cases hafter : row.changeSeq ≤ after
  · exact .inl hafter
  · rcases h.complete row hrow (not_le.mp hafter) with hmem | hall
    · rcases mem_cons.mp hmem with heq | hmem
      · exact .inr heq
      · exact absurd (rel_of_pairwise_cons h.sorted hmem) (not_lt.mpr hle)
    · exact absurd (hall c mem_cons_self) (not_lt.mpr hle)

/-- A position that is no longer taken by a row can be left out. -/
theorem Iterating.skip (hgone : ∀ row ∈ feed.index, row.cursor ≠ c) :
    feed.Iterating after queue where
  sorted := h.sorted.of_cons
  marks other hother := h.marks other (mem_cons_of_mem _ hother)
  notBefore other hother := h.notBefore other (mem_cons_of_mem _ hother)
  complete row hrow hafter := by
    rcases h.complete row hrow hafter with hmem | hall
    · exact .inl ((mem_cons.mp hmem).resolve_left (hgone row hrow))
    · exact .inr fun other hother => hall other (mem_cons_of_mem _ hother)

end

/-- **A row that is still there is handed out.** -/
theorem InOrder.read_of_mem (h : feed.InOrder) {row : DocumentIndexEntry} (hrow : row ∈ feed.index) :
    ∃ doc, feed.read row = some doc := by
  rw [read]
  split
  · rename_i hlive
    have htells := h.tells row hrow
    rw [Tells, hlive.1] at htells
    obtain ⟨doc, hdoc, -⟩ := htells
    exact ⟨doc, hdoc⟩
  · exact ⟨_, rfl⟩

/-- A row that is not handed out is gone. -/
theorem InOrder.gone_of_read (h : feed.InOrder)
    (hunmoved : feed.Unmoved (row :: rows)) (hread : feed.read row = none) :
    ∀ other ∈ feed.index, other.cursor ≠ row.cursor := by
  intro other hother heq
  have hsame := hunmoved row mem_cons_self other hother
    (congrArg ProcessChangesCursor.changeSeq heq)
  obtain ⟨doc, hdoc⟩ := h.read_of_mem hother
  rw [hsame, hread] at hdoc
  exact nomatch hdoc

end ChangeFeed

end MindooDB
