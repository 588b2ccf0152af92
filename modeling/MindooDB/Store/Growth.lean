import MindooDB.Store.InMemoryScan

/-!
# Store/Growth — a store that no entry leaves

An entry that is written, and one that a receipt moves, gets a number that was never handed out.  So
an entry with an old number has stood there all the time (`Grows.old`), and a page that was scanned
some time ago still tells of all the old numbers (`Grows.mem_scan`).
-/

namespace MindooDB

open InMemoryStore List

namespace Ledger

variable (a : Ledger)

/-- Whether an entry is stored under an id. -/
def Has (id : JSString) : Prop := ∃ e ∈ a.live, e.id = id

/-- The entries in the order of a scan. -/
def feed : List StoreEntryMetadata :=
  sortBy compareByReceiptOrderAndId (a.live.map StoreEntry.toStoreEntryMetadata)

/-- `scanEntriesSince`, without filters. -/
def scanEntriesSince (cursor : Option StoreScanCursor) (limit : ℕ) : StoreScanResult :=
  scanPage (pendingEntries a.feed cursor none) cursor limit

/-- The highest number handed out. -/
def maxReceiptOrder : ℤ := a.next - 1

/-- **A store that only grows**: entries stay, and a number is handed out once. -/
structure Grows (a b : Ledger) : Prop where
  next : a.next ≤ b.next
  mem : ∀ id, a.Has id → b.Has id
  old : ∀ e ∈ b.live, e.order < a.next → ∃ e' ∈ a.live, e'.id = e.id ∧ e'.order = e.order

variable {a} {b c : Ledger}

theorem Grows.refl (a : Ledger) : Grows a a := ⟨le_rfl, fun _ => id, fun e he _ => ⟨e, he, rfl, rfl⟩⟩

theorem Grows.trans (hab : Grows a b) (hbc : Grows b c) : Grows a c where
  next := hab.next.trans hbc.next
  mem id h := hbc.mem id (hab.mem id h)
  old e he hlt := by
    obtain ⟨e', he', hid, horder⟩ := hbc.old e he (hlt.trans_le hab.next)
    obtain ⟨e'', he'', hid', horder'⟩ := hab.old e' he' (horder ▸ hlt)
    exact ⟨e'', he'', hid'.trans hid, horder'.trans horder⟩

theorem grows_put (entry : StoreEntry) : Grows a (a.put entry) := by
  cases hfind : a.find? entry.id with
  | some e =>
    rw [put_of_find?_eq_some hfind]
    exact Grows.refl a
  | none =>
    refine ⟨by rw [next_put hfind]; omega, ?_, fun e he hlt => ?_⟩
    · rintro id ⟨e, he, rfl⟩
      exact ⟨e, live_put hfind ▸ mem_append_left _ he, rfl⟩
    · rw [live_put hfind, mem_append, mem_singleton] at he
      rcases he with he | rfl
      · exact ⟨e, he, rfl, rfl⟩
      · exact absurd hlt (lt_irrefl a.next)

theorem grows_witness (receipt : StoreEntryMetadata) : Grows a (a.witness receipt) := by
  by_cases hnews : a.news receipt = true
  swap
  · rw [witness_of_not_news (Bool.eq_false_iff.mpr hnews)]
    exact Grows.refl a
  refine ⟨by rw [next_witness hnews]; omega, ?_, fun e he hlt => ?_⟩
  · rintro id ⟨e, he, rfl⟩
    rw [Has, live_witness hnews]
    exact ⟨_, mem_map_of_mem he, id_rewitness receipt a.next e⟩
  · rw [live_witness hnews] at he
    obtain ⟨e', he', rfl⟩ := mem_map.mp he
    refine ⟨e', he', (id_rewitness receipt a.next e').symm, ?_⟩
    rw [order_rewitness] at hlt ⊢
    split at hlt
    · exact absurd hlt (lt_irrefl a.next)
    · rename_i hne
      rw [if_neg hne]

variable {e : StoreEntry}

/-- What a receipt names is the only entry that it moves. -/
theorem mem_witness {receipt : StoreEntryMetadata} (he : e ∈ a.live)
    (hid : e.id ≠ receipt.id) : e ∈ (a.witness receipt).live := by
  by_cases hnews : a.news receipt = true
  · rw [live_witness hnews]
    exact mem_map.mpr ⟨e, he, by rw [rewitness, if_neg hid]⟩
  · rwa [witness_of_not_news (Bool.eq_false_iff.mpr hnews)]

theorem mem_put {entry : StoreEntry} (he : e ∈ a.live) : e ∈ (a.put entry).live := by
  cases hfind : a.find? entry.id with
  | some e => rwa [put_of_find?_eq_some hfind]
  | none => exact live_put hfind ▸ mem_append_left _ he

theorem has_put (entry : StoreEntry) : (a.put entry).Has entry.id := by
  cases hfind : a.find? entry.id with
  | some e =>
    rw [put_of_find?_eq_some hfind]
    exact ⟨e, find?_eq_some_iff.mp hfind⟩
  | none => exact ⟨stamp entry a.next, by simp [live_put hfind], rfl⟩

/-! ## Batches -/

theorem grows_foldl_put (entries : List StoreEntry) : Grows a (entries.foldl put a) := by
  induction entries generalizing a with
  | nil => exact Grows.refl a
  | cons entry entries ih => exact (grows_put entry).trans ih

theorem grows_foldl_witness (receipts : List StoreEntryMetadata) :
    Grows a (receipts.foldl witness a) := by
  induction receipts generalizing a with
  | nil => exact Grows.refl a
  | cons receipt receipts ih => exact (grows_witness receipt).trans ih

theorem has_foldl_put {entries : List StoreEntry} {entry : StoreEntry} (h : entry ∈ entries) :
    (entries.foldl put a).Has entry.id := by
  obtain ⟨before, after, rfl⟩ := append_of_mem h
  rw [foldl_append, foldl_cons]
  exact (grows_foldl_put after).mem _ (has_put entry)

theorem mem_foldl_witness {receipts : List StoreEntryMetadata} (he : e ∈ a.live)
    (hid : ∀ receipt ∈ receipts, e.id ≠ receipt.id) : e ∈ (receipts.foldl witness a).live := by
  induction receipts generalizing a with
  | nil => exact he
  | cons receipt receipts ih =>
    exact ih (mem_witness he (hid receipt mem_cons_self))
      fun other hother => hid other (mem_cons_of_mem receipt hother)

/-! ## Scans -/

theorem mem_feed {metadata : StoreEntryMetadata} :
    metadata ∈ a.feed ↔ ∃ e ∈ a.live, e.toStoreEntryMetadata = metadata := by
  rw [feed, mem_sortBy, mem_map]

theorem sorted_feed : a.feed.Pairwise fun m m' => m.order < m'.order := by
  have hdistinct : (a.live.map StoreEntry.toStoreEntryMetadata).Pairwise
      fun m m' => m.order ≠ m'.order := pairwise_map.mpr (a.distinct.imp And.right)
  have hsorted := pairwise_pos_sortBy hdistinct
  have hne := (perm_sortBy compareByReceiptOrderAndId _).symm.pairwise hdistinct fun h => h.symm
  refine (hsorted.and hne).imp fun {m m'} h => ?_
  exact ((Prod.Lex.toLex_lt_toLex.mp h.1).resolve_right fun heq => h.2 heq.1)

/-- The number that a cursor has reached. -/
def reached (cursor : Option StoreScanCursor) : ℤ := (cursor.map StoreScanCursor.receiptOrder).getD 0

theorem reached_or (page : List StoreEntryMetadata) (cursor : Option StoreScanCursor) :
    reached (cursorAfterPage page cursor)
      = (page.getLast?.map StoreEntryMetadata.order).getD (reached cursor) := by
  cases hlast : page.getLast? <;> simp [cursorAfterPage, reached, hlast, StoreEntryMetadata.cursor]

variable {cursor : Option StoreScanCursor} {limit : ℕ}

/-- What a page has is in the store, and after the cursor. -/
theorem mem_live_of_mem_scan {metadata : StoreEntryMetadata}
    (h : metadata ∈ (a.scanEntriesSince cursor limit).entries) :
    (∃ e ∈ a.live, e.toStoreEntryMetadata = metadata) ∧
      ∀ c ∈ cursor, c.receiptOrder < metadata.order ∨
        c.receiptOrder = metadata.order ∧ c.id < metadata.id := by
  have hpending := mem_of_mem_take h
  rw [pendingEntries, mem_filter, mem_filter] at hpending
  obtain ⟨⟨hfeed, -⟩, hafter⟩ := hpending
  refine ⟨mem_feed.mp hfeed, fun c hc => ?_⟩
  have hlt : c.pos < metadata.pos := by
    rw [Option.mem_def.mp hc] at hafter
    simpa using hafter
  exact Prod.Lex.toLex_lt_toLex.mp hlt

/-- **A page has all entries with numbers from the cursor to its end**; its end is that of the store
where no more is waiting. -/
theorem mem_scan (he : e ∈ a.live) (hafter : reached cursor < e.order)
    (hend : (a.scanEntriesSince cursor limit).hasMore = true →
      ∃ last ∈ (a.scanEntriesSince cursor limit).entries, e.order ≤ last.order) :
    e.toStoreEntryMetadata ∈ (a.scanEntriesSince cursor limit).entries := by
  have hpending : e.toStoreEntryMetadata ∈ pendingEntries a.feed cursor none := by
    rw [pendingEntries, mem_filter, mem_filter]
    refine ⟨⟨mem_feed.mpr ⟨e, he, rfl⟩, rfl⟩, ?_⟩
    cases cursor with
    | none => rfl
    | some c =>
      have hlt : c.pos < e.pos := Prod.Lex.toLex_lt_toLex.mpr (.inl hafter)
      simpa using hlt
  have hsplit := take_append_drop limit (pendingEntries a.feed cursor none)
  rw [← hsplit, mem_append] at hpending
  refine hpending.resolve_right fun hdrop => ?_
  have hsorted : (pendingEntries a.feed cursor none).Pairwise fun m m' => m.order < m'.order :=
    (sorted_feed.filter _).filter _
  rw [← hsplit, pairwise_append] at hsorted
  have hmore : (a.scanEntriesSince cursor limit).hasMore = true := by
    refine decide_eq_true (not_le.mp fun hle => ?_)
    rw [drop_eq_nil_of_le hle] at hdrop
    cases hdrop
  obtain ⟨last, hlast, hle⟩ := hend hmore
  exact absurd (hsorted.2.2 last hlast _ hdrop) (not_lt.mpr hle)

/-- An empty page is the last one. -/
theorem hasMore_of_nil (hlimit : 0 < limit)
    (hnil : (a.scanEntriesSince cursor limit).entries = []) :
    (a.scanEntriesSince cursor limit).hasMore = false := by
  have hpending := (take_eq_nil_iff.mp hnil).resolve_left hlimit.ne'
  simp [scanEntriesSince, scanPage, hpending]

end Ledger

end MindooDB
