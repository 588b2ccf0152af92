import MindooDB.Lib.LatestBy
import MindooDB.Lib.Run
import MindooDB.Summary.Feed

/-!
# Changefeed/Index — the index with its table of positions

`core/BaseMindooDB.ts`: `updateIndex` moves the row of a document and repairs `indexLookup` later,
from the first position that may be wrong (`indexLookupStaleFrom`).  The table is never asked past
what it knows (`Positioned`), so the index is that of `Summary/Feed` (`Positioned.updateIndex`), and
that is the end of a log of changes (`Logs`).
-/

namespace MindooDB

open List

/-- The index with the positions of its rows. -/
structure ChangeIndex where
  index : List DocumentIndexEntry := []
  indexLookup : LinkedMap JSString ℕ := ∅
  indexLookupStaleFrom : Option ℕ := none
  nextChangeSeq : ℕ := 1

structure ProcessChangeSummaryResult where
  docId : JSString
  lastModified : ℚ
  isDeleted : Bool
  cursor : ProcessChangesCursor
  deriving DecidableEq

/-- `normalizeIdPrefixFilter`. -/
def normalizeIdPrefixFilter (idPrefix : Option JSString) : Option JSString :=
  (idPrefix.map fun p : JSString => ⟨p.units.rdropWhile fun u => u = Fin.ofNat _ '_'.toNat⟩).filter
    fun stripped => !stripped.isEmpty

def matchesDocIdPrefix (docId idPrefix : JSString) : Bool :=
  idPrefix.isEmpty || docId = idPrefix || docId.startsWith (idPrefix ++ ("_" : JSString))

/-- A listing with a prefix goes through the documents that have it. -/
def listed (idPrefix : Option JSString) (docId : JSString) : Bool :=
  match normalizeIdPrefixFilter idPrefix with
  | none => true
  | some idPrefix => matchesDocIdPrefix docId idPrefix

/-- What an iteration hands out for a row. -/
def DocumentIndexEntry.summary (row : DocumentIndexEntry) : ProcessChangeSummaryResult :=
  ⟨row.docId, row.lastModified, row.isDeleted, row.cursor⟩

namespace ChangeIndex

variable (env : Runtime) (s : ChangeIndex)

/-! ## The table of positions -/

def flushIndexLookupPatch : ChangeIndex :=
  match s.indexLookupStaleFrom with
  | none => s
  | some staleFrom =>
    { s with
      indexLookup := (s.index.zipIdx.drop staleFrom).foldl
        (fun lookup row => lookup.set row.1.docId row.2) s.indexLookup
      indexLookupStaleFrom := none }

/-- The position, and the table after the repair that it may take to find it. -/
def getDocIndexPosition (docId : JSString) : Option ℕ × ChangeIndex :=
  match s.indexLookup.get? docId with
  | none => (none, s)
  | some pos =>
    if (s.index[pos]?).any fun row => row.docId = docId then (some pos, s)
    else
      let s := s.flushIndexLookupPatch
      (s.indexLookup.get? docId, s)

/-! ## Changes -/

/-- All fields that the index tracks agree. -/
def sameState (existing row : DocumentIndexEntry) : Bool :=
  existing.lastModified = row.lastModified && existing.isDeleted = row.isDeleted
    && existing.decryptionKeyId = row.decryptionKeyId && existing.accessState = row.accessState
    && existing.awaitingWitness = row.awaitingWitness && existing.witnessed = row.witnessed

/-- Put a row where it belongs in an index that has none of its document. -/
def insertRow (newEntry : DocumentIndexEntry) (existingIndex : Option ℕ) : ChangeIndex :=
  let insertIndex := ScanFeed.bisect (fun existing : DocumentIndexEntry =>
    decide (0 ≤ compareIndexEntries env newEntry.cursor existing.cursor)) s.index
  let index := s.index.insertIdx insertIndex newEntry
  let shiftedFrom := match existingIndex with
    | some existingIndex => min existingIndex insertIndex
    | none => insertIndex
  { index := index
    indexLookup := s.indexLookup.set newEntry.docId insertIndex
    indexLookupStaleFrom :=
      if shiftedFrom < index.length - 1 then
        some (match s.indexLookupStaleFrom with
          | none => shiftedFrom
          | some staleFrom => min staleFrom shiftedFrom)
      else s.indexLookupStaleFrom
    nextChangeSeq := newEntry.changeSeq + 1 }

/-- A document changed: it gets a new number and its row moves, unless nothing changed. -/
def updateIndex (row : DocumentIndexEntry) (forceChangeSeqBump : Bool) : ChangeIndex :=
  let newEntry := { row with changeSeq := s.nextChangeSeq }
  let (existingIndex, s) := s.getDocIndexPosition row.docId
  match existingIndex with
  | none => s.insertRow env newEntry none
  | some existingIndex =>
    if !forceChangeSeqBump && (s.index[existingIndex]?).any fun existing => sameState existing row
    then s
    else
      { s with
        index := s.index.eraseIdx existingIndex
        indexLookup := s.indexLookup.delete row.docId }.insertRow env newEntry (some existingIndex)

/-- What a checkpoint says of the index, with a new table. -/
def restore (index : List DocumentIndexEntry) (nextChangeSeq : ℕ) : ChangeIndex where
  index := index
  indexLookup := LinkedMap.ofList (index.zipIdx.map fun row => (row.1.docId, row.2))
  indexLookupStaleFrom := none
  nextChangeSeq :=
    if 0 < index.length ∧ nextChangeSeq ≤ index.length then
      (index.map (·.changeSeq)).foldl max 0 + 1
    else nextChangeSeq

/-! ## Readers -/

/-- The index as its readers see it. -/
def feed : ChangeFeed where
  index := s.index
  nextChangeSeq := s.nextChangeSeq

def iterateChangeMetadataSince (cursor : Option ProcessChangesCursor) (idPrefix : Option JSString) :
    List ProcessChangeSummaryResult :=
  ((s.index.drop (s.feed.getStartIndexForCursor env (cursor.getD ChangeFeed.origin))).filter
    fun row => listed idPrefix row.docId).map (·.summary)

def getLatestChangeCursor : Option ProcessChangesCursor := s.index.getLast?.map (·.cursor)

def countChangesSince (cursor : Option ProcessChangesCursor) (idPrefix : Option JSString) : ℕ :=
  let startIndex := s.feed.getStartIndexForCursor env (cursor.getD ChangeFeed.origin)
  match normalizeIdPrefixFilter idPrefix with
  | none => s.index.length - startIndex
  | some idPrefix => (s.index.drop startIndex).countP fun row => matchesDocIdPrefix row.docId idPrefix

theorem length_iterateChangeMetadataSince (cursor : Option ProcessChangesCursor)
    (idPrefix : Option JSString) : (s.iterateChangeMetadataSince env cursor idPrefix).length
      = s.countChangesSince env cursor idPrefix := by
  rw [iterateChangeMetadataSince, countChangesSince, length_map]
  simp only [listed]
  cases normalizeIdPrefixFilter idPrefix with
  | none => simp
  | some idPrefix => exact countP_eq_length_filter.symm

/-! ## What the table knows -/

/-- **The table has every document**, and is right below the first position that may be wrong. -/
structure Positioned (s : ChangeIndex) : Prop where
  indexed : s.feed.Indexed
  positive : 0 < s.nextChangeSeq
  listed : ∀ docId, (∃ pos, s.indexLookup.get? docId = some pos) ↔
    ∃ row ∈ s.index, row.docId = docId
  position : ∀ pos row, s.index[pos]? = some row → (∀ staleFrom ∈ s.indexLookupStaleFrom,
    pos < staleFrom) → s.indexLookup.get? row.docId = some pos

variable {env s} {row : DocumentIndexEntry} {docId : JSString} {pos : ℕ}

/-- Two positions of one document are one. -/
theorem eq_of_docId (h : (s.index.map (·.docId)).Nodup) {pos' : ℕ} {row' : DocumentIndexEntry}
    (hrow : s.index[pos]? = some row) (hrow' : s.index[pos']? = some row')
    (hdocId : row.docId = row'.docId) : pos = pos' := by
  have hpos : (s.index.map (·.docId))[pos]? = some row.docId := by simp [hrow]
  have hpos' : (s.index.map (·.docId))[pos']? = some row.docId := by simp [hrow', hdocId]
  obtain ⟨hlt, heq⟩ := List.getElem?_eq_some_iff.mp hpos
  obtain ⟨hlt', heq'⟩ := List.getElem?_eq_some_iff.mp hpos'
  exact (List.Nodup.getElem_inj_iff h).mp (heq.trans heq'.symm)

theorem mem_drop_zipIdx {l : List DocumentIndexEntry} {staleFrom : ℕ} {entry : DocumentIndexEntry × ℕ} :
    entry ∈ l.zipIdx.drop staleFrom ↔ staleFrom ≤ entry.2 ∧ l[entry.2]? = some entry.1 := by
  rw [mem_iff_getElem?]
  simp only [getElem?_drop, getElem?_zipIdx, Option.map_eq_some_iff, Nat.zero_add]
  constructor
  · rintro ⟨i, row, hrow, rfl⟩
    exact ⟨Nat.le_add_right _ _, hrow⟩
  · rintro ⟨hle, hrow⟩
    refine ⟨entry.2 - staleFrom, entry.1, ?_, ?_⟩
    all_goals rw [Nat.add_sub_cancel' hle]
    exact hrow

/-- **The repair** makes the whole table right. -/
theorem Positioned.flushIndexLookupPatch (h : s.Positioned) :
    s.flushIndexLookupPatch.Positioned ∧ s.flushIndexLookupPatch.feed = s.feed
      ∧ s.flushIndexLookupPatch.indexLookupStaleFrom = none := by
  rw [ChangeIndex.flushIndexLookupPatch]
  cases hstale : s.indexLookupStaleFrom with
  | none => exact ⟨h, rfl, hstale⟩
  | some staleFrom =>
    have hnodup : ((s.index.zipIdx.drop staleFrom).map fun entry => entry.1.docId).Nodup := by
      have hall : (s.index.zipIdx.map fun entry => entry.1.docId).Nodup := by
        have hfst : (s.index.zipIdx.map Prod.fst).map (·.docId) = s.index.map (·.docId) := by
          rw [zipIdx_map_fst]
        rw [map_map] at hfst
        exact hfst ▸ h.indexed.distinct
      exact hall.sublist ((drop_sublist _ _).map _)
    have hget := fun docId => LinkedMap.get?_foldl_set (fun entry : DocumentIndexEntry × ℕ => entry.1.docId)
      (fun entry => entry.2) s.indexLookup hnodup (k := docId)
    have hposition : ∀ pos row, s.index[pos]? = some row →
        ((s.index.zipIdx.drop staleFrom).foldl
          (fun lookup row => lookup.set row.1.docId row.2) s.indexLookup).get? row.docId
            = some pos := by
      intro pos row hrow
      by_cases hle : staleFrom ≤ pos
      · exact (hget row.docId).1 (row, pos) (mem_drop_zipIdx.mpr ⟨hle, hrow⟩) rfl
      · rw [(hget row.docId).2]
        · refine h.position pos row hrow fun k hk => ?_
          rw [hstale] at hk
          obtain rfl := Option.mem_some_iff.mp hk
          exact not_le.mp hle
        · intro entry hentry hdocId
          obtain ⟨hle', hrow'⟩ := mem_drop_zipIdx.mp hentry
          exact hle ((eq_of_docId h.indexed.distinct hrow' hrow hdocId) ▸ hle')
    refine ⟨⟨h.indexed, h.positive, fun docId => ⟨fun hpos => ?_, fun hrow => ?_⟩,
      fun pos row hrow _ => hposition pos row hrow⟩, rfl, rfl⟩
    · by_cases hmem : ∃ entry ∈ s.index.zipIdx.drop staleFrom, entry.1.docId = docId
      · obtain ⟨entry, hentry, hdocId⟩ := hmem
        exact ⟨entry.1, mem_of_getElem? (mem_drop_zipIdx.mp hentry).2, hdocId⟩
      · rw [(hget docId).2 fun entry hentry hdocId => hmem ⟨entry, hentry, hdocId⟩] at hpos
        exact (h.listed docId).mp hpos
    · obtain ⟨row, hrow, rfl⟩ := hrow
      obtain ⟨pos, hpos⟩ := mem_iff_getElem?.mp hrow
      exact ⟨pos, hposition pos row hpos⟩

/-- **A position that is looked up is that of the document's row.** -/
theorem Positioned.getDocIndexPosition (h : s.Positioned) (docId : JSString) :
    (s.getDocIndexPosition docId).2.Positioned ∧ (s.getDocIndexPosition docId).2.feed = s.feed
      ∧ ∀ pos, (s.getDocIndexPosition docId).1 = some pos ↔
        ∃ row, s.index[pos]? = some row ∧ row.docId = docId := by
  rw [ChangeIndex.getDocIndexPosition]
  cases hget : s.indexLookup.get? docId with
  | none =>
    refine ⟨h, rfl, fun pos => ⟨fun hpos => (by cases hpos), fun ⟨row, hrow, hdocId⟩ => ?_⟩⟩
    obtain ⟨pos, hpos⟩ := (h.listed docId).mpr ⟨row, mem_of_getElem? hrow, hdocId⟩
    rw [hget] at hpos
    cases hpos
  | some pos =>
    by_cases hat : (s.index[pos]?).any fun row => row.docId = docId
    · simp only [hat]
      obtain ⟨row, hrow, hdocId⟩ := (Option.any_eq_true _ _).mp hat
      refine ⟨h, rfl, fun pos' => ⟨?_, ?_⟩⟩
      · intro hpos'
        obtain rfl := Option.some.inj hpos'
        exact ⟨row, hrow, of_decide_eq_true hdocId⟩
      · rintro ⟨row', hrow', hdocId'⟩
        exact congrArg some
          (eq_of_docId h.indexed.distinct hrow hrow' ((of_decide_eq_true hdocId).trans hdocId'.symm))
    · obtain ⟨hflushed, hfeed, hclean⟩ := h.flushIndexLookupPatch
      simp only [hat]
      refine ⟨hflushed, hfeed, fun pos => ?_⟩
      have hindex : s.flushIndexLookupPatch.index = s.index := congrArg ChangeFeed.index hfeed
      constructor
      · intro hpos
        obtain ⟨row, hrow, rfl⟩ := (hflushed.listed docId).mp ⟨pos, hpos⟩
        obtain ⟨pos', hrow'⟩ := mem_iff_getElem?.mp hrow
        have hpos' := hflushed.position pos' row hrow' (by simp [hclean])
        obtain rfl := Option.some.inj (hpos.symm.trans hpos')
        exact ⟨row, hindex ▸ hrow', rfl⟩
      · rintro ⟨row, hrow, rfl⟩
        exact hflushed.position pos row (hindex ▸ hrow) (by simp [hclean])

/-! ## The rows after a change -/

/-- A row with the greatest number goes to the end. -/
theorem insertRow_eq {newEntry : DocumentIndexEntry} (existingIndex : Option ℕ)
    (hbelow : ∀ row ∈ s.index, row.changeSeq < newEntry.changeSeq) :
    s.insertRow env newEntry existingIndex =
      { index := s.index ++ [newEntry]
        indexLookup := s.indexLookup.set newEntry.docId s.index.length
        indexLookupStaleFrom :=
          match existingIndex with
          | none => s.indexLookupStaleFrom
          | some existingIndex =>
            if existingIndex < s.index.length then
              some (match s.indexLookupStaleFrom with
                | none => existingIndex
                | some staleFrom => min staleFrom existingIndex)
            else s.indexLookupStaleFrom
        nextChangeSeq := newEntry.changeSeq + 1 } := by
  have hbisect : ScanFeed.bisect (fun existing : DocumentIndexEntry =>
      decide (0 ≤ compareIndexEntries env newEntry.cursor existing.cursor)) s.index
        = s.index.length := by
    refine ScanFeed.bisect_eq_length fun row hrow => ?_
    have hpos : 0 < compareIndexEntries env newEntry.cursor row.cursor :=
      ChangeFeed.compareIndexEntries_of_gt (hbelow row hrow)
    simpa using hpos.le
  simp only [insertRow, hbisect, insertIdx_length_self, length_append, length_singleton,
    Nat.add_sub_cancel]
  cases existingIndex with
  | none => simp
  | some existingIndex =>
    by_cases hlt : existingIndex < s.index.length
    · simp [hlt, hlt.le]
    · simp [hlt, not_lt.mp hlt]

/-- What `sameState` and the index of `Summary/Feed` compare. -/
theorem newRow_eq_newRow_iff {feed : ChangeFeed} {existing row : DocumentIndexEntry} :
    feed.newRow existing = feed.newRow row ↔
      existing.docId = row.docId ∧ sameState existing row = true := by
  cases existing
  cases row
  simp [ChangeFeed.newRow, sameState, and_assoc]

/-- The row at the position of a document is erased like the first row of the document. -/
theorem eraseIdx_eq_filter (h : (s.index.map (·.docId)).Nodup) (hrow : s.index[pos]? = some row) :
    s.index.eraseIdx pos = s.index.filter fun existing => decide (existing.docId ≠ row.docId) := by
  have hfind : s.index.findIdx? (fun existing => decide (existing.docId = row.docId)) = some pos := by
    obtain ⟨hlt, hget⟩ := List.getElem?_eq_some_iff.mp hrow
    refine findIdx?_eq_some_iff_getElem.mpr ⟨hlt, by simp [hget], fun j hj hsame => ?_⟩
    have hrow' : s.index[j]? = some s.index[j] := getElem?_eq_getElem _
    exact hj.ne (eq_of_docId h hrow' hrow (of_decide_eq_true hsame))
  rw [← ChangeFeed.eraseP_eq_filter h, eraseP_eq_eraseIdx, hfind]

/-- The table after the row of a document was put at the end. -/
theorem positioned_of_moved {moved : ChangeIndex} (hindexed : moved.feed.Indexed)
    (hpositive : 0 < moved.nextChangeSeq) {index : List DocumentIndexEntry}
    {newEntry : DocumentIndexEntry} {lookup : LinkedMap JSString ℕ}
    (hindex : moved.index = index ++ [newEntry])
    (hlookup : moved.indexLookup = lookup.set newEntry.docId index.length)
    (hlisted : ∀ docId, docId ≠ newEntry.docId → ((∃ pos, lookup.get? docId = some pos) ↔
      ∃ row ∈ index, row.docId = docId))
    (hposition : ∀ pos row, index[pos]? = some row → (∀ staleFrom ∈ moved.indexLookupStaleFrom,
      pos < staleFrom) → lookup.get? row.docId = some pos) : moved.Positioned := by
  have hfresh : ∀ row ∈ index, row.docId ≠ newEntry.docId := by
    intro row hrow heq
    have hdistinct : (moved.index.map (·.docId)).Nodup := hindexed.distinct
    rw [hindex, map_append, nodup_append] at hdistinct
    exact hdistinct.2.2 _ (mem_map_of_mem hrow) _ mem_cons_self heq
  refine ⟨hindexed, hpositive, fun docId => ?_, fun pos row hrow hclean => ?_⟩
  · rw [hlookup, hindex]
    by_cases hdocId : docId = newEntry.docId
    · subst hdocId
      exact ⟨fun _ => ⟨newEntry, by simp, rfl⟩, fun _ => ⟨_, LinkedMap.get?_set_self _ _ _⟩⟩
    · simp only [LinkedMap.get?_set_of_ne _ _ hdocId, hlisted docId hdocId, mem_append,
        mem_singleton]
      constructor
      · rintro ⟨row, hrow, heq⟩
        exact ⟨row, .inl hrow, heq⟩
      · rintro ⟨row, hrow | rfl, heq⟩
        · exact ⟨row, hrow, heq⟩
        · exact absurd heq.symm hdocId
  · rw [hindex] at hrow
    rw [hlookup]
    rcases Nat.lt_or_ge pos index.length with hlt | hge
    · rw [getElem?_append_left hlt] at hrow
      rw [LinkedMap.get?_set_of_ne _ _ (hfresh row (mem_of_getElem? hrow))]
      exact hposition pos row hrow hclean
    · obtain rfl : pos = index.length := by
        have hlength := (List.getElem?_eq_some_iff.mp hrow).1
        rw [length_append, length_singleton] at hlength
        omega
      rw [getElem?_concat_length] at hrow
      obtain rfl := Option.some.inj hrow
      exact LinkedMap.get?_set_self _ _ _

/-- A position that is right after a row was erased stands before it, and was right. -/
theorem lt_of_clean {j : ℕ} (hj : j < (s.index.eraseIdx pos).length)
    (hclean : ∀ staleFrom ∈ (if pos < (s.index.eraseIdx pos).length then
        some (match s.indexLookupStaleFrom with
          | none => pos
          | some staleFrom => min staleFrom pos)
      else s.indexLookupStaleFrom), j < staleFrom) :
    j < pos ∧ ∀ staleFrom ∈ s.indexLookupStaleFrom, j < staleFrom := by
  split at hclean
  · cases hstale : s.indexLookupStaleFrom with
    | none => exact ⟨by simpa [hstale] using hclean, by simp⟩
    | some staleFrom =>
      have hboth : j < staleFrom ∧ j < pos := by simpa [hstale] using hclean
      exact ⟨hboth.2, by simpa using hboth.1⟩
  · rename_i hlast
    exact ⟨lt_of_lt_of_le hj (not_lt.mp hlast), hclean⟩

/-- A row is put at the end, in place of the one that its document had. -/
theorem Positioned.insertRow (env : Runtime) (h : s.Positioned) {t : ChangeIndex}
    {existingIndex : Option ℕ} {force : Bool}
    (hchange : force = true ∨ ∀ existing ∈ s.index, s.feed.newRow existing ≠ s.feed.newRow row)
    (hindex : t.index = s.index.filter fun existing => decide (existing.docId ≠ row.docId))
    (hlookup : ∀ docId, docId ≠ row.docId → t.indexLookup.get? docId = s.indexLookup.get? docId)
    (hposition : ∀ pos other, t.index[pos]? = some other →
      (∀ staleFrom ∈ (t.insertRow env (s.feed.newRow row) existingIndex).indexLookupStaleFrom,
        pos < staleFrom) → s.indexLookup.get? other.docId = some pos) :
    (t.insertRow env (s.feed.newRow row) existingIndex).Positioned
      ∧ (t.insertRow env (s.feed.newRow row) existingIndex).feed
        = s.feed.updateIndex env row force := by
  have hmem : ∀ {existing}, existing ∈ t.index ↔
      existing ∈ s.index ∧ existing.docId ≠ row.docId := by
    simp [hindex]
  have hbelow : ∀ existing ∈ t.index, existing.changeSeq < (s.feed.newRow row).changeSeq :=
    fun existing hexisting => (h.indexed.below existing (hmem.mp hexisting).1).2
  have hinsert : t.insertRow env (s.feed.newRow row) existingIndex = _ :=
    insertRow_eq existingIndex hbelow
  have hfeed : (t.insertRow env (s.feed.newRow row) existingIndex).feed
      = s.feed.updateIndex env row force := by
    rw [h.indexed.updateIndex_eq row hchange, hinsert, hindex]
    rfl
  refine ⟨?_, hfeed⟩
  refine positioned_of_moved (hfeed ▸ h.indexed.updateIndex env h.positive row force) ?_
    (congrArg ChangeIndex.index hinsert) (congrArg ChangeIndex.indexLookup hinsert) ?_ ?_
  · rw [hinsert]
    exact Nat.succ_pos _
  · intro docId hdocId
    rw [hlookup docId hdocId, h.listed docId]
    refine exists_congr fun existing => ?_
    rw [hmem]
    exact ⟨fun ⟨hexisting, heq⟩ => ⟨⟨hexisting, heq ▸ hdocId⟩, heq⟩,
      fun ⟨hexisting, heq⟩ => ⟨hexisting.1, heq⟩⟩
  · intro pos existing hpos hclean
    rw [hlookup _ (hmem.mp (mem_of_getElem? hpos)).2]
    exact hposition pos existing hpos hclean

/-- **The table is kept right, and the index is that of its readers.** -/
theorem Positioned.updateIndex (env : Runtime) (h : s.Positioned) (row : DocumentIndexEntry)
    (force : Bool) : (s.updateIndex env row force).Positioned
      ∧ (s.updateIndex env row force).feed = s.feed.updateIndex env row force := by
  obtain ⟨hlooked, hfeed, hposition⟩ := h.getDocIndexPosition row.docId
  rw [ChangeIndex.updateIndex]
  generalize s.getDocIndexPosition row.docId = found at hlooked hfeed hposition
  obtain ⟨existingIndex, t⟩ := found
  have hindex : t.index = s.index := congrArg ChangeFeed.index hfeed
  have hnext : t.nextChangeSeq = s.nextChangeSeq := congrArg ChangeFeed.nextChangeSeq hfeed
  simp only at hlooked hfeed hposition
  rw [← hfeed, ← hnext]
  rw [← hindex] at hposition
  cases existingIndex with
  | none =>
    have hnone : ∀ existing ∈ t.index, existing.docId ≠ row.docId := by
      intro existing hmem hdocId
      obtain ⟨pos, hpos⟩ := mem_iff_getElem?.mp hmem
      cases (hposition pos).mpr ⟨existing, hpos, hdocId⟩
    refine hlooked.insertRow env (.inr fun existing hmem heq =>
      hnone existing hmem (newRow_eq_newRow_iff.mp heq).1) ?_ (fun _ _ => rfl) ?_
    · exact (filter_eq_self.mpr fun existing hmem => decide_eq_true (hnone existing hmem)).symm
    · intro pos other hother hclean
      rw [insertRow_eq none fun existing hmem => (hlooked.indexed.below existing hmem).2] at hclean
      exact hlooked.position pos other hother hclean
  | some pos =>
    obtain ⟨existing, hexisting, hdocId⟩ := (hposition pos).mp rfl
    have hsame : ∀ other ∈ t.index, t.feed.newRow other = t.feed.newRow row ↔
        other = existing ∧ sameState existing row = true := by
      intro other hother
      rw [newRow_eq_newRow_iff]
      constructor
      · rintro ⟨hother', hstate⟩
        obtain rfl := hlooked.indexed.eq_of_docId hother (mem_of_getElem? hexisting)
          (hother'.trans hdocId.symm)
        exact ⟨rfl, hstate⟩
      · rintro ⟨rfl, hstate⟩
        exact ⟨hdocId, hstate⟩
    simp only [hexisting, Option.any_some]
    by_cases hchange : force = true ∨ ∀ other ∈ t.index, t.feed.newRow other ≠ t.feed.newRow row
    · have hskip : (!force && sameState existing row) = false := by
        rcases hchange with rfl | hchange
        · rfl
        · rw [Bool.eq_false_iff.mpr fun hstate => hchange existing (mem_of_getElem? hexisting)
            ((hsame existing (mem_of_getElem? hexisting)).mpr ⟨rfl, hstate⟩), Bool.and_false]
      rw [if_neg (by simp [hskip])]
      have herase := eraseIdx_eq_filter hlooked.indexed.distinct hexisting
      rw [hdocId] at herase
      refine hlooked.insertRow env hchange herase
        (fun docId hne => LinkedMap.get?_delete_of_ne _ hne) ?_
      intro j other hother hclean
      rw [insertRow_eq (some pos) fun other hmem =>
        (hlooked.indexed.below other (mem_of_mem_eraseIdx hmem)).2] at hclean
      obtain ⟨hlt, hstale⟩ := lt_of_clean (List.getElem?_eq_some_iff.mp hother).1 hclean
      rw [getElem?_eraseIdx_of_lt hlt] at hother
      exact hlooked.position j other hother hstale
    · have hskip : (!force && sameState existing row) = true := by
        push Not at hchange
        obtain ⟨hforce, other, hother, heq⟩ := hchange
        simp [hforce, ((hsame other hother).mp heq).2]
      rw [if_pos hskip, ChangeFeed.updateIndex_eq_self hchange]
      exact ⟨hlooked, rfl⟩

/-- **An update writes the row of its document, and no other.** -/
theorem Positioned.mem_updateIndex (env : Runtime) (h : s.Positioned) (row : DocumentIndexEntry)
    (force : Bool) :
    (∃ written ∈ (s.updateIndex env row force).index,
        written.docId = row.docId ∧ sameState written row = true)
      ∧ ∀ other, other.docId ≠ row.docId →
        (other ∈ (s.updateIndex env row force).index ↔ other ∈ s.index) := by
  obtain ⟨-, hfeed⟩ := h.updateIndex env row force
  have hindex : (s.updateIndex env row force).index = (s.feed.updateIndex env row force).index :=
    congrArg ChangeFeed.index hfeed
  rw [hindex]
  by_cases hchange : force = true ∨ ∀ existing ∈ s.index,
      s.feed.newRow existing ≠ s.feed.newRow row
  · rw [h.indexed.updateIndex_eq row hchange]
    refine ⟨⟨s.feed.newRow row, by simp, rfl, by simp [sameState, ChangeFeed.newRow]⟩, ?_⟩
    intro other hother
    have hnot : other ≠ s.feed.newRow row := by
      rintro rfl
      exact hother rfl
    simp only [mem_append, mem_singleton, hnot, or_false, mem_filter,
      decide_eq_true_eq, hother, not_false_eq_true, ne_eq, and_true]
    exact Iff.rfl
  · rw [ChangeFeed.updateIndex_eq_self hchange]
    push Not at hchange
    obtain ⟨-, existing, hexisting, heq⟩ := hchange
    exact ⟨⟨existing, hexisting, newRow_eq_newRow_iff.mp heq⟩, fun other _ => Iff.rfl⟩

theorem positioned_empty : Positioned {} where
  indexed := ChangeFeed.inOrder_empty.toIndexed
  positive := Nat.one_pos
  listed docId := by simp [LinkedMap.get?]
  position pos row hrow := by simp at hrow

end ChangeIndex

end MindooDB
