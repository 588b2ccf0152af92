import MindooDB.Lib.CompareSort
import MindooDB.Lib.ScanFeed
import MindooDB.Store.Entry

/-!
# Store/ScanUtils — the doc-scoped scan

`core/appendonlystores/scanUtils.ts`: the canonical order of a scan, the cursor and filter tests,
and the scan over the entries of one document.
-/

namespace MindooDB

/-- `a - b`, or the order of the ids when that is zero. -/
def compareByReceiptOrderAndId (a b : StoreEntryMetadata) : ℤ :=
  if a.order ≠ b.order then a.order - b.order
  else if a.id < b.id then -1 else if b.id < a.id then 1 else 0

/-- Whether `metadata` sorts strictly after the cursor. -/
def isAfterScanCursor (metadata : StoreEntryMetadata) (cursor : StoreScanCursor) : Bool :=
  metadata.order > cursor.receiptOrder ||
    (metadata.order = cursor.receiptOrder && metadata.id > cursor.id)

/-- Whether a string is set and not empty, as `if (s)` reads it. -/
def truthy (s : Option JSString) : Bool := s.any fun s => !s.isEmpty

def metadataMatchesScanFilters (metadata : StoreEntryMetadata) (filters : Option StoreScanFilters) :
    Bool :=
  match filters with
  | none => true
  | some f =>
    if truthy f.docId && f.docId ≠ some metadata.docId then false
    else if f.entryTypes.any fun types => !types.isEmpty && !types.contains metadata.entryType then
      false
    else if f.creationDateFrom.any fun t => metadata.createdAt < t then false
    else if f.creationDateUntil.any fun t => metadata.createdAt ≥ t then false
    else true

/-- The loop of `scanDocScopedEntries`: the page filled so far, then the rest of the entries. -/
def docScopedLoop (cursor : Option StoreScanCursor) (limit : ℕ)
    (filters : Option StoreScanFilters) :
    List StoreEntryMetadata → List StoreEntryMetadata → List StoreEntryMetadata × Bool
  | page, [] => (page, false)
  | page, metadata :: rest =>
    if cursor.any fun c => !isAfterScanCursor metadata c then docScopedLoop cursor limit filters page rest
    else if !metadataMatchesScanFilters metadata filters then docScopedLoop cursor limit filters page rest
    else if page.length < limit then docScopedLoop cursor limit filters (page ++ [metadata]) rest
    else (page, true)

/-- The cursor after a page: its last entry, or the old cursor when the page is empty. -/
def cursorAfterPage (page : List StoreEntryMetadata) (cursor : Option StoreScanCursor) :
    Option StoreScanCursor :=
  (page.getLast?.map StoreEntryMetadata.cursor).or cursor

/-- A scan of one document. -/
def scanDocScopedEntries (docEntries : List StoreEntryMetadata) (cursor : Option StoreScanCursor)
    (limit : ℕ) (filters : Option StoreScanFilters) : StoreScanResult :=
  let sorted := sortBy compareByReceiptOrderAndId docEntries
  let (page, hasMore) := docScopedLoop cursor limit filters [] sorted
  ⟨page, cursorAfterPage page cursor, hasMore⟩

/-! ## What the pieces compute -/

theorem compareByReceiptOrderAndId_nonpos {a b : StoreEntryMetadata} :
    compareByReceiptOrderAndId a b ≤ 0 ↔ a.pos ≤ b.pos := by
  unfold compareByReceiptOrderAndId
  rw [StoreEntryMetadata.pos, StoreEntryMetadata.pos, Prod.Lex.toLex_le_toLex]
  split
  · omega
  · rename_i h
    have h' : a.order = b.order := not_not.mp h
    split
    · rename_i hlt
      simp [h', hlt.le]
    · rename_i hnlt
      split
      · rename_i hlt
        simp [h', hlt]
      · rename_i hnlt'
        simp [h', not_lt.mp hnlt']

/-- The canonical order is a total preorder on any list… -/
theorem consistent_compareByReceiptOrderAndId (l : List StoreEntryMetadata) :
    Consistent compareByReceiptOrderAndId l where
  total a _ b _ := by
    simp only [compareByReceiptOrderAndId_nonpos]
    exact le_total a.pos b.pos
  trans a _ b _ c _ := by
    simp only [compareByReceiptOrderAndId_nonpos]
    exact le_trans

/-- **Strictly after the cursor**, as a comparison of positions. -/
theorem isAfterScanCursor_eq (metadata : StoreEntryMetadata) (cursor : StoreScanCursor) :
    isAfterScanCursor metadata cursor = decide (cursor.pos < metadata.pos) := by
  rw [Bool.eq_iff_iff, decide_eq_true_iff, StoreScanCursor.pos, StoreEntryMetadata.pos,
    Prod.Lex.toLex_lt_toLex]
  simp only [isAfterScanCursor, gt_iff_lt, Bool.or_eq_true, Bool.and_eq_true, decide_eq_true_eq]
  rw [eq_comm (a := metadata.order)]

theorem any_not_isAfterScanCursor (metadata : StoreEntryMetadata) (cursor : Option StoreScanCursor) :
    (cursor.any fun c => !isAfterScanCursor metadata c)
      = !ScanFeed.after (cursor.map StoreScanCursor.pos) metadata.pos := by
  cases cursor with
  | none => rfl
  | some c => simp [isAfterScanCursor_eq, ← decide_not]

/-- The page and the `hasMore` flag a scan of `pending` entries has to give. -/
def scanPage (pending : List StoreEntryMetadata) (cursor : Option StoreScanCursor) (limit : ℕ) :
    StoreScanResult :=
  ⟨pending.take limit, cursorAfterPage (pending.take limit) cursor, decide (limit < pending.length)⟩

/-- The entries of a feed a scan still owes: strictly after the cursor and passing the filters. -/
def pendingEntries (feed : List StoreEntryMetadata) (cursor : Option StoreScanCursor)
    (filters : Option StoreScanFilters) : List StoreEntryMetadata :=
  (feed.filter fun m => metadataMatchesScanFilters m filters).filter fun m =>
    ScanFeed.after (cursor.map StoreScanCursor.pos) m.pos

theorem docScopedLoop_eq (cursor : Option StoreScanCursor) (limit : ℕ)
    (filters : Option StoreScanFilters) (l page : List StoreEntryMetadata)
    (hpage : page.length ≤ limit) :
    docScopedLoop cursor limit filters page l
      = (page ++ (pendingEntries l cursor filters).take (limit - page.length),
        decide (limit - page.length < (pendingEntries l cursor filters).length)) := by
  induction l generalizing page with
  | nil => simp [docScopedLoop, pendingEntries]
  | cons m l ih =>
    rw [docScopedLoop, any_not_isAfterScanCursor]
    by_cases ha : ScanFeed.after (cursor.map StoreScanCursor.pos) m.pos = true
    swap
    · rw [if_pos (by simp [ha]), ih page hpage]
      by_cases hm : metadataMatchesScanFilters m filters = true <;> simp [pendingEntries, ha, hm]
    by_cases hm : metadataMatchesScanFilters m filters = true
    swap
    · rw [if_neg (by simp [ha]), if_pos (by simp [hm]), ih page hpage]
      simp [pendingEntries, hm]
    have hcons : pendingEntries (m :: l) cursor filters = m :: pendingEntries l cursor filters := by
      simp [pendingEntries, hm, ha]
    rw [if_neg (by simp [ha]), if_neg (by simp [hm]), hcons]
    split
    · rename_i hlt
      have hsub : limit - page.length = limit - (page ++ [m]).length + 1 := by
        rw [List.length_append, List.length_singleton]; omega
      rw [ih _ (by rw [List.length_append, List.length_singleton]; omega), hsub]
      simp
    · rename_i hge
      have hsub : limit - page.length = 0 := by omega
      simp [hsub]

/-- **The doc-scoped scan gives the page of what is pending**, in the canonical order. -/
theorem scanDocScopedEntries_eq (docEntries : List StoreEntryMetadata)
    (cursor : Option StoreScanCursor) (limit : ℕ) (filters : Option StoreScanFilters) :
    scanDocScopedEntries docEntries cursor limit filters
      = scanPage (pendingEntries (sortBy compareByReceiptOrderAndId docEntries) cursor filters)
        cursor limit := by
  simp only [scanDocScopedEntries, scanPage,
    docScopedLoop_eq cursor limit filters _ [] (Nat.zero_le _), List.length_nil, Nat.sub_zero,
    List.nil_append]

/-- A scan page is the feed page at the entries' positions. -/
theorem map_pos_scanPage (pending : List StoreEntryMetadata) (cursor : Option StoreScanCursor)
    (limit : ℕ) :
    (⟨(scanPage pending cursor limit).entries,
        (scanPage pending cursor limit).nextCursor.map StoreScanCursor.pos,
        (scanPage pending cursor limit).hasMore⟩ : ScanFeed.Page StoreEntryMetadata ScanPos)
      = ScanFeed.pageOf StoreEntryMetadata.pos pending (cursor.map StoreScanCursor.pos) limit := by
  simp only [scanPage, cursorAfterPage, ScanFeed.pageOf, ScanFeed.Page.mk.injEq, true_and, and_true]
  cases (pending.take limit).getLast? <;> simp

end MindooDB
