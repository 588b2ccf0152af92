import MindooDB.Store.InMemoryRefinement

/-!
# Store/InMemoryScan — the in-memory scan feed

In a reachable store the order numbers are distinct, so the two comparators of the two scan paths
agree on its entries whatever the collation, and the cached array is the **feed**: the live
entries in the order of their positions.  Either path then gives a page of what is pending in the
feed, and paging through it is `ScanFeed.drain`.
-/

namespace MindooDB.InMemoryStore

open List ScanFeed StoreScanCursor

/-- The live entries in the order `(receiptOrder, id)`. -/
def feed (s : InMemoryStore) : List StoreEntryMetadata :=
  sortBy compareByReceiptOrderAndId s.entries.values

/-- No two live entries share an order number. -/
def DistinctOrders (s : InMemoryStore) : Prop :=
  s.entries.values.Pairwise fun m m' => m.order ≠ m'.order

variable {s : InMemoryStore} {a : Ledger}

theorem Represents.distinctOrders (h : Represents s a) : DistinctOrders s := by
  rw [DistinctOrders, h.values_entries]
  exact pairwise_map.mpr (a.distinct.imp And.right)

/-- On distinct order numbers the collation is never asked. -/
theorem sortBy_compareSorted (localeCompare : JSString → JSString → ℤ) {l : List StoreEntryMetadata}
    (hl : l.Pairwise fun m m' => m.order ≠ m'.order) :
    sortBy (compareSorted localeCompare) l = sortBy compareByReceiptOrderAndId l := by
  refine sortBy_congr (hl.imp fun {m m'} hne => ?_)
  rw [compareSorted, if_neg hne, compareByReceiptOrderAndId, if_pos hne]

/-- Distinct order numbers make the canonical order strict. -/
theorem pairwise_pos_sortBy {l : List StoreEntryMetadata}
    (hl : l.Pairwise fun m m' => m.order ≠ m'.order) :
    (sortBy compareByReceiptOrderAndId l).Pairwise fun m m' => m.pos < m'.pos := by
  have hle := pairwise_sortBy (consistent_compareByReceiptOrderAndId l)
  have hne := (perm_sortBy compareByReceiptOrderAndId l).symm.pairwise hl fun h => h.symm
  refine (hle.and hne).imp fun {m m'} h => ?_
  refine lt_of_le_of_ne (compareByReceiptOrderAndId_nonpos.mp h.1) fun heq => h.2 ?_
  exact congrArg (fun p => (ofLex p).1) heq

theorem DistinctOrders.pairwise_feed (h : DistinctOrders s) :
    s.feed.Pairwise fun m m' => m.pos < m'.pos := pairwise_pos_sortBy h

/-! ## The cache -/

/-- The cached array, when there is one, is the sort of the live entries. -/
def CacheValid (localeCompare : JSString → JSString → ℤ) (s : InMemoryStore) : Prop :=
  ∀ sorted, s.sortedEntriesCache = some sorted →
    sorted = sortBy (compareSorted localeCompare) s.entries.values

variable {localeCompare : JSString → JSString → ℤ}

theorem getSortedEntries_snd (h : CacheValid localeCompare s) : (s.getSortedEntries localeCompare).2
      = sortBy (compareSorted localeCompare) s.entries.values := by
  unfold getSortedEntries
  split
  · exact h _ ‹_›
  · rfl

theorem cacheValid_getSortedEntries (h : CacheValid localeCompare s) :
    CacheValid localeCompare (s.getSortedEntries localeCompare).1 := by
  unfold getSortedEntries
  split
  · exact h
  · rintro sorted ⟨⟩
    rfl

/-- A batch of receipts that brought nothing new left the entries alone. -/
theorem entries_foldl_applyWitnessReceipt (receipts : List StoreEntryMetadata)
    (p : InMemoryStore × Bool)
    (h : (receipts.foldl InMemoryStore.applyWitnessReceipt p).2 = false) :
    p.2 = false ∧ (receipts.foldl InMemoryStore.applyWitnessReceipt p).1 = p.1 := by
  induction receipts generalizing p with
  | nil => exact ⟨h, rfl⟩
  | cons receipt receipts ih =>
    obtain ⟨hflag, hrest⟩ := ih _ h
    rw [foldl_cons, hrest]
    revert hflag
    unfold InMemoryStore.applyWitnessReceipt
    split
    · exact fun hflag => ⟨hflag, rfl⟩
    · split
      · exact fun hflag => ⟨hflag, rfl⟩
      · split
        · exact fun hflag => ⟨hflag, rfl⟩
        · simp

theorem CacheValid.call (h : CacheValid localeCompare s)
    (c : StoreCall) : CacheValid localeCompare (s.call localeCompare c) := by
  cases c with
  | putEntries entries => exact fun _ hs => by simp [InMemoryStore.call, putEntries] at hs
  | applyWitnessReceipts receipts =>
    simp only [InMemoryStore.call, applyWitnessReceipts]
    split
    · exact fun _ hs => by simp at hs
    · rename_i hflag
      rw [(entries_foldl_applyWitnessReceipt receipts (s, false) (by simpa using hflag)).2]
      exact h
  | purgeDocHistory docId =>
    simp only [InMemoryStore.call, InMemoryStore.purgeDocHistory]
    split
    · exact h
    · split
      · exact h
      · exact fun _ hs => by simp at hs
  | clearAllLocalData epoch =>
    exact fun _ hs => by simp [InMemoryStore.call, clearAllLocalData] at hs
  | scanEntriesSince cursor limit filters =>
    simp only [InMemoryStore.call, scanEntriesSince]
    split
    · exact h
    · exact cacheValid_getSortedEntries h

theorem cacheValid_run (localeCompare : JSString → JSString → ℤ) (epoch : JSString)
    (calls : List StoreCall) : CacheValid localeCompare (run localeCompare epoch calls) := by
  suffices ∀ s, CacheValid localeCompare s →
      CacheValid localeCompare (calls.foldl (InMemoryStore.call localeCompare) s) from
    this _ fun _ hs => by simp at hs
  induction calls with
  | nil => exact fun _ h => h
  | cons c calls ih => exact fun s h => ih _ (h.call c)

/-! ## The two paths -/

theorem atOrBeforeCursor_eq (cursor : StoreScanCursor) (m : StoreEntryMetadata) :
    atOrBeforeCursor cursor m = decide (m.pos ≤ cursor.pos) := by
  rw [Bool.eq_iff_iff, decide_eq_true_iff, StoreEntryMetadata.pos, pos, Prod.Lex.toLex_le_toLex]
  simp [atOrBeforeCursor]

/-- The binary search starts the pass right after the cursor. -/
theorem drop_startIndex {sorted : List StoreEntryMetadata}
    (hsorted : sorted.Pairwise fun m m' => m.pos < m'.pos) (cursor : Option StoreScanCursor) :
    sorted.drop (startIndex sorted cursor)
      = sorted.filter fun m => after (cursor.map pos) m.pos := by
  cases cursor with
  | none => simp [startIndex]
  | some c =>
    have hdown : sorted.Pairwise fun m m' => atOrBeforeCursor c m' → atOrBeforeCursor c m := by
      refine hsorted.imp fun {m m'} hlt => ?_
      simp only [atOrBeforeCursor_eq, decide_eq_true_eq]
      exact hlt.le.trans
    rw [startIndex, binarySearchAfterCursor, drop_bisect hdown]
    refine filter_congr fun m _ => ?_
    simp [atOrBeforeCursor_eq, ← decide_not]

/-- **The full-store path gives the page of what is pending.** -/
theorem scanSorted_eq {sorted : List StoreEntryMetadata}
    (hsorted : sorted.Pairwise fun m m' => m.pos < m'.pos) (cursor : Option StoreScanCursor)
    (limit : ℕ) (filters : Option StoreScanFilters) :
    scanSorted sorted cursor limit filters
      = scanPage (pendingEntries sorted cursor filters) cursor limit := by
  have hpending : (sorted.filter fun m =>
        after (cursor.map pos) m.pos).filter (matchesScanFilters · filters)
      = pendingEntries sorted cursor filters := by
    simp only [pendingEntries, filter_filter, Bool.and_comm, matchesScanFilters]
  simp only [scanSorted, drop_startIndex hsorted, fillPage_fst, fillPage_snd_any,
    hpending, scanPage]

/-- The metadata behind ids of a document, found through the index. -/
theorem Represents.filterMap_docIndex (h : Represents s a) (docId : JSString) (p : JSString → Bool) :
    (((s.docIndex.get? docId).elim [] LinkedSet.toList).filter p).filterMap s.entries.get?
      = (a.live.filter fun e => decide (e.docId = docId) && p e.id).map
          StoreEntry.toStoreEntryMetadata := by
  have hids : (s.docIndex.get? docId).elim [] LinkedSet.toList = a.idsOf docId := by
    have hindex := h.docIndex docId
    split at hindex
    · rename_i hempty
      rw [Option.map_eq_none_iff.mp hindex, hempty]
      rfl
    · obtain ⟨ids, hget, hlist⟩ := Option.map_eq_some_iff.mp hindex
      rw [hget]
      exact hlist
  rw [hids, Ledger.idsOf, filter_map, filterMap_map, filter_filter, ← filterMap_eq_map]
  simp only [Function.comp_apply, Bool.and_comm]
  refine filterMap_congr fun e he => ?_
  have hfind : a.find? e.id = some e :=
    Ledger.find?_eq_some_iff.mpr ⟨mem_of_mem_filter he, rfl⟩
  simp [h.get?_entries, hfind]

/-- The entries of a document are the live entries naming it, in some order. -/
theorem Represents.perm_docEntries (h : Represents s a) (docId : JSString) :
    (s.docEntries docId).Perm (s.entries.values.filter fun m => m.docId = docId) := by
  have hentries := h.filterMap_docIndex docId fun _ => true
  simp only [filter_true, Bool.and_true] at hentries
  refine List.Perm.of_eq (Eq.trans ?_ (hentries.trans ?_))
  · rw [docEntries]
    cases s.docIndex.get? docId <;> rfl
  · rw [h.values_entries, filter_map]
    rfl

theorem scopeOf_eq_some {filters : Option StoreScanFilters} {docId : JSString}
    (h : scopeOf filters = some docId) (m : StoreEntryMetadata)
    (hm : metadataMatchesScanFilters m filters = true) : m.docId = docId := by
  rcases filters with _ | f
  · simp [scopeOf] at h
  rw [scopeOf, Option.filter_eq_some_iff, Option.bind_some] at h
  obtain ⟨hdoc, hne⟩ := h
  have htruthy : truthy (some docId) = true := by simpa [truthy] using hne
  by_contra hcon
  simp [metadataMatchesScanFilters, hdoc, htruthy, Ne.symm hcon] at hm

/-- A scan scoped to a document owes what the whole feed owes. -/
theorem Represents.pendingEntries_docEntries (h : Represents s a)
    {filters : Option StoreScanFilters} {docId : JSString} (hscope : scopeOf filters = some docId)
    (cursor : Option StoreScanCursor) :
    pendingEntries (sortBy compareByReceiptOrderAndId (s.docEntries docId)) cursor filters
      = pendingEntries s.feed cursor filters := by
  have hperm := h.perm_docEntries docId
  have hdistinct := h.distinctOrders
  have hsep : Separates compareByReceiptOrderAndId s.entries.values := by
    intro m hm m' hm' hle hle'
    have hpos := le_antisymm (compareByReceiptOrderAndId_nonpos.mp hle)
      (compareByReceiptOrderAndId_nonpos.mp hle')
    have horder : m.order = m'.order := congrArg (fun p => (ofLex p).1) hpos
    exact inj_on_of_nodup_map (pairwise_map.mpr hdistinct) hm hm' horder
  have hsort : sortBy compareByReceiptOrderAndId (s.docEntries docId)
      = s.feed.filter fun m => m.docId = docId := by
    rw [feed, filter_sortBy (consistent_compareByReceiptOrderAndId _) hsep]
    exact sortBy_eq_of_perm (consistent_compareByReceiptOrderAndId _)
      (hsep.of_subset filter_sublist.subset) hperm
  have hfilter : (s.feed.filter fun m => m.docId = docId).filter
      (fun m => metadataMatchesScanFilters m filters)
        = s.feed.filter fun m => metadataMatchesScanFilters m filters := by
    rw [filter_filter]
    refine filter_congr fun m _ => ?_
    by_cases hm : metadataMatchesScanFilters m filters = true
    · simp [hm, scopeOf_eq_some hscope m hm]
    · simp [hm]
  rw [hsort, pendingEntries, pendingEntries, hfilter]

/-- **A scan gives the page of what is pending in the feed**, down either path. -/
theorem scanEntriesSince_snd (h : Represents s a)
    (hcache : CacheValid localeCompare s) (cursor : Option StoreScanCursor) (limit : ℕ)
    (filters : Option StoreScanFilters) :
    (s.scanEntriesSince localeCompare cursor limit filters).2
      = scanPage (pendingEntries s.feed cursor filters) cursor limit := by
  unfold scanEntriesSince
  split
  · rename_i docId hscope
    simp only [scanDocScopedEntries_eq, h.pendingEntries_docEntries hscope]
  · simp only [getSortedEntries_snd hcache, sortBy_compareSorted localeCompare h.distinctOrders]
    exact scanSorted_eq h.distinctOrders.pairwise_feed cursor limit filters

/-! ## Paging -/

/-- Scan page after page from a cursor, the `i`-th of length `limits i`, until none is waiting;
`none` when `fuel` pages were not enough. -/
def scanAll (localeCompare : JSString → JSString → ℤ) (filters : Option StoreScanFilters) :
    ℕ → InMemoryStore → (ℕ → ℕ) → Option StoreScanCursor → Option (List StoreEntryMetadata)
  | 0, _, _, _ => none
  | fuel + 1, s, limits, cursor =>
    let (s', result) := s.scanEntriesSince localeCompare cursor (limits 0) filters
    if result.hasMore then
      (scanAll localeCompare filters fuel s' (fun i => limits (i + 1)) result.nextCursor).map
        (result.entries ++ ·)
    else some result.entries

theorem feed_scanEntriesSince (localeCompare : JSString → JSString → ℤ) (s : InMemoryStore)
    (cursor : Option StoreScanCursor) (limit : ℕ) (filters : Option StoreScanFilters) :
    (s.scanEntriesSince localeCompare cursor limit filters).1.feed = s.feed := by
  have hsorted : (s.getSortedEntries localeCompare).1.feed = s.feed := by
    unfold getSortedEntries
    split <;> rfl
  unfold scanEntriesSince
  split
  · rfl
  · exact hsorted

/-- Paging through the store is draining its feed. -/
theorem scanAll_eq_drain {localeCompare : JSString → JSString → ℤ} (h : Represents s a)
    (hcache : CacheValid localeCompare s) (filters : Option StoreScanFilters) (fuel : ℕ)
    (limits : ℕ → ℕ) (cursor : Option StoreScanCursor) :
    s.scanAll localeCompare filters fuel limits cursor
      = drain (fun c n => pageOf StoreEntryMetadata.pos
          ((s.feed.filter fun m => metadataMatchesScanFilters m filters).filter fun m =>
            after c m.pos) c n) fuel limits (cursor.map pos) := by
  induction fuel generalizing s limits cursor with
  | zero => rfl
  | succ fuel ih =>
    have hpage := scanEntriesSince_snd h hcache cursor (limits 0) filters
    have hpos := map_pos_scanPage (pendingEntries s.feed cursor filters) cursor (limits 0)
    rw [← hpage] at hpos
    have hrest := ih (h.call localeCompare (.scanEntriesSince cursor (limits 0) filters))
      (hcache.call (.scanEntriesSince cursor (limits 0) filters)) (fun i => limits (i + 1))
      (s.scanEntriesSince localeCompare cursor (limits 0) filters).2.nextCursor
    simp only [InMemoryStore.call, feed_scanEntriesSince] at hrest
    rw [scanAll, drain]
    simp only [hrest]
    rw [pendingEntries] at hpos
    simp only [← hpos]

/-- **Paging delivers what is pending**, each entry once and in order, with one page per entry and
one over as an upper bound on the pages needed. -/
theorem scanAll_eq {localeCompare : JSString → JSString → ℤ} (h : Represents s a)
    (hcache : CacheValid localeCompare s) (filters : Option StoreScanFilters) {fuel : ℕ}
    (hfuel : s.entries.size < fuel) {limits : ℕ → ℕ} (hlimits : ∀ i, 1 ≤ limits i)
    (cursor : Option StoreScanCursor) :
    s.scanAll localeCompare filters fuel limits cursor
      = some (pendingEntries s.feed cursor filters) := by
  have hlength : (pendingEntries s.feed cursor filters).length ≤ s.entries.size := by
    have hperm := (perm_sortBy compareByReceiptOrderAndId s.entries.values).length_eq
    rw [LinkedMap.length_values] at hperm
    exact (length_filter_le _ _).trans ((length_filter_le _ _).trans hperm.le)
  rw [scanAll_eq_drain h hcache]
  exact drain_eq (h.distinctOrders.pairwise_feed.filter _) (fun _ _ => rfl) fuel limits _
    hlimits (hlength.trans_lt hfuel)

/-- What a peer may rely on when it scans.  `complete`: paging from any cursor ends, and delivers
exactly the live entries that pass the filters and lie strictly after the cursor, each once and in
the order of their positions.  `docScoped`: a scan of one document gives the very page the full-store
path would give. -/
structure GapFree (localeCompare : JSString → JSString → ℤ) (s : InMemoryStore) : Prop where
  complete : ∀ (cursor : Option StoreScanCursor) (filters : Option StoreScanFilters)
    (limits : ℕ → ℕ) (fuel : ℕ), (∀ i, 1 ≤ limits i) → s.entries.size < fuel →
    ∃ delivered, s.scanAll localeCompare filters fuel limits cursor = some delivered ∧
      delivered.Pairwise (fun m m' => m.pos < m'.pos) ∧
      ∀ m, m ∈ delivered ↔ m ∈ s.entries.values ∧ metadataMatchesScanFilters m filters = true ∧
        ∀ c, cursor = some c → c.pos < m.pos
  docScoped : ∀ (cursor : Option StoreScanCursor) (limit : ℕ) (filters : Option StoreScanFilters)
    (docId : JSString), scopeOf filters = some docId →
    scanDocScopedEntries (s.docEntries docId) cursor limit filters
      = scanSorted (s.getSortedEntries localeCompare).2 cursor limit filters

/-- **The scan paths agree and lose nothing**, in every reachable store and under any collation. -/
theorem gapFree_run (localeCompare : JSString → JSString → ℤ) (epoch : JSString)
    (calls : List StoreCall) : GapFree localeCompare (run localeCompare epoch calls) := by
  have hrep := represents_run localeCompare epoch calls
  have hcache := cacheValid_run localeCompare epoch calls
  refine ⟨fun cursor filters limits fuel hlimits hfuel => ?_, fun cursor limit filters docId hscope => ?_⟩
  · refine ⟨_, scanAll_eq hrep hcache filters hfuel hlimits cursor,
      (hrep.distinctOrders.pairwise_feed.filter _).filter _, fun m => ?_⟩
    cases cursor with
    | none => simp [pendingEntries, feed]
    | some c =>
      simp only [pendingEntries, feed, mem_filter, mem_sortBy, Option.map_some,
        after_some, decide_eq_true_eq, Option.some.injEq, forall_eq']
      tauto
  · rw [scanDocScopedEntries_eq, hrep.pendingEntries_docEntries hscope,
      getSortedEntries_snd hcache, sortBy_compareSorted localeCompare hrep.distinctOrders]
    exact (scanSorted_eq hrep.distinctOrders.pairwise_feed cursor limit filters).symm

end MindooDB.InMemoryStore
