import MindooDB.Lib.CursorScan
import MindooDB.Store.ScanUtils

/-!
# Network/ScanFallback — cursor scans over stores that have none

The fallback of `handleScanEntriesSince` in `ServerNetworkContentAddressedStore.ts` and that of
`scanEntriesSince` in `ClientNetworkContentAddressedStore.ts`.  Both sort the entries by receipt
order and `localeCompare` of the ids, cut a page, and go on behind its last entry, where ids are
compared by code units.

Both are pages cut from a sorted list (`ScanFeed.cutPage`), so that paging is complete just if the
two comparisons agree on that list (`pagesComplete_iff`).
-/

namespace MindooDB

open List

/-- Metadata with the key of the payload. -/
structure KeyedMetadata extends StoreEntryMetadata where
  decryptionKeyId : JSString
  deriving DecidableEq

/-- A page, and where it ended. -/
structure KeyedScanResult where
  entries : List KeyedMetadata
  nextCursor : Option StoreScanCursor
  hasMore : Bool

/-! ## The scans -/

/-- The filters of both fallbacks, that for a document apart. -/
def passesScanFilters (filters : StoreScanFilters) (metadata : KeyedMetadata) : Bool :=
  if filters.entryTypes.any fun types => !types.isEmpty && !types.contains metadata.entryType then
    false
  else if filters.creationDateFrom.any fun t => metadata.createdAt < t then false
  else if filters.creationDateUntil.any fun t => metadata.createdAt ≥ t then false
  else true

def compareForScan (localeCompare : JSString → JSString → ℤ) (a b : KeyedMetadata) : ℤ :=
  if a.order = b.order then localeCompare a.id b.id else a.order - b.order

/-- `filterMetasByRevokedKeys`, for one entry. -/
def isServable (revoked : List JSString) (metadata : KeyedMetadata) : Bool :=
  metadata.decryptionKeyId.isEmpty || metadata.decryptionKeyId ∉ revoked

/-- The first position behind a cursor. -/
def scanStart (sorted : List KeyedMetadata) (cursor : Option StoreScanCursor) : Option ℕ :=
  match cursor with
  | none => some 0
  | some cursor =>
    sorted.findIdx? fun metadata => isAfterScanCursor metadata.toStoreEntryMetadata cursor

/-- The page behind the cursor, of which only some entries are sent. -/
def pageBehind (sorted : List KeyedMetadata) (sent : KeyedMetadata → Bool)
    (cursor : Option StoreScanCursor) (limit : ℕ) : KeyedScanResult :=
  match scanStart sorted cursor with
  | none => ⟨[], cursor, false⟩
  | some startIndex =>
    let page := (sorted.drop startIndex).take limit
    ⟨page.filter sent, (page.getLast?.map fun metadata => metadata.cursor).or cursor,
      startIndex + page.length < sorted.length⟩

namespace ServerNetworkContentAddressedStore

def MAX_SCAN_PAGE_SIZE : ℕ := 1000

/-- The page size for a requested one, `none` where it is missing or not finite. -/
def effectiveLimit (limit : Option ℚ) : ℕ :=
  max 1 (min (limit.elim (MAX_SCAN_PAGE_SIZE : ℤ) Int.floor) MAX_SCAN_PAGE_SIZE).toNat

/-- What the fallback sorts. -/
def scanned (localeCompare : JSString → JSString → ℤ) (stored : List KeyedMetadata)
    (filters : Option StoreScanFilters) : List KeyedMetadata :=
  let all := match filters with
    | some filters =>
      if truthy filters.docId then
        stored.filter fun metadata : KeyedMetadata => filters.docId = some metadata.docId
      else stored
    | none => stored
  sortBy (compareForScan localeCompare) (all.filter fun metadata =>
    filters.all (passesScanFilters · metadata))

/-- The scan of a store without one, for a token that is not for a wipe. -/
def handleScanEntriesSince (localeCompare : JSString → JSString → ℤ) (stored : List KeyedMetadata)
    (revoked : List JSString) (filters : Option StoreScanFilters) (cursor : Option StoreScanCursor)
    (limit : Option ℚ) : KeyedScanResult :=
  pageBehind (scanned localeCompare stored filters) (isServable revoked) cursor
    (effectiveLimit limit)

/-- `handleFindNewEntries` without known ids. -/
def handleFindNewEntries (stored : List KeyedMetadata) (revoked : List JSString) :
    List KeyedMetadata := stored.filter (isServable revoked)

end ServerNetworkContentAddressedStore

namespace ClientNetworkContentAddressedStore

def scanned (localeCompare : JSString → JSString → ℤ) (all : List KeyedMetadata)
    (filters : Option StoreScanFilters) : List KeyedMetadata :=
  sortBy (compareForScan localeCompare) (all.filter fun metadata =>
    filters.all fun filters =>
      if truthy filters.docId && filters.docId ≠ some metadata.docId then false
      else passesScanFilters filters metadata)

/-- The scan of a server that offers none: of all that it serves. -/
def scanEntriesSince (localeCompare : JSString → JSString → ℤ) (stored : List KeyedMetadata)
    (revoked : List JSString) (filters : Option StoreScanFilters) (cursor : Option StoreScanCursor)
    (limit : ℕ+) : KeyedScanResult :=
  pageBehind (scanned localeCompare
    (ServerNetworkContentAddressedStore.handleFindNewEntries stored revoked) filters)
    (fun _ => true) cursor limit

end ClientNetworkContentAddressedStore

/-- **Paging** until there is no more, each page with its own limit; `none` where `fuel` pages were
not enough. -/
def pageThrough {L : Type} (scan : Option StoreScanCursor → L → KeyedScanResult) :
    ℕ → (ℕ → L) → Option StoreScanCursor → Option (List KeyedMetadata)
  | 0, _, _ => none
  | fuel + 1, limits, cursor =>
    if (scan cursor (limits 0)).hasMore then
      (pageThrough scan fuel (fun i => limits (i + 1)) (scan cursor (limits 0)).nextCursor).map
        ((scan cursor (limits 0)).entries ++ ·)
    else some (scan cursor (limits 0)).entries

/-- Each matching entry that is served, once. -/
def Shows (stored : List KeyedMetadata) (revoked : List JSString)
    (filters : Option StoreScanFilters) (shown : List KeyedMetadata) : Prop :=
  shown.Nodup ∧ ∀ metadata, metadata ∈ shown ↔ metadata ∈ stored
    ∧ metadataMatchesScanFilters metadata.toStoreEntryMetadata filters = true
    ∧ isServable revoked metadata = true

/-- **Paging from the start is complete.** -/
def Complete {L : Type} (stored : List KeyedMetadata) (revoked : List JSString)
    (filters : Option StoreScanFilters)
    (scan : Option StoreScanCursor → L → KeyedScanResult) : Prop :=
  ∀ limits : ℕ → L, ∃ fuel shown, pageThrough scan fuel limits none = some shown
    ∧ Shows stored revoked filters shown

/-- **Sorted by code units** where receipt orders are equal. -/
def RisesByCodeUnits (l : List KeyedMetadata) : Prop :=
  l.Pairwise fun a b => a.pos < b.pos

instance : DecidablePred RisesByCodeUnits := fun l =>
  inferInstanceAs (Decidable (l.Pairwise fun a b => a.pos < b.pos))

/-! ## What is sorted -/

section

variable {localeCompare : JSString → JSString → ℤ} {stored : List KeyedMetadata}
  {revoked : List JSString} {filters : Option StoreScanFilters} {metadata : KeyedMetadata}

theorem matches_eq (metadata : KeyedMetadata) (filters : StoreScanFilters) :
    metadataMatchesScanFilters metadata.toStoreEntryMetadata (some filters)
      = if truthy filters.docId && filters.docId ≠ some metadata.docId then false
        else passesScanFilters filters metadata := rfl

namespace ServerNetworkContentAddressedStore

theorem mem_scanned : metadata ∈ scanned localeCompare stored filters ↔ metadata ∈ stored
    ∧ metadataMatchesScanFilters metadata.toStoreEntryMetadata filters = true := by
  unfold scanned
  rw [mem_sortBy, mem_filter]
  cases filters with
  | none => exact Iff.rfl
  | some filters =>
    rw [Option.all_some, matches_eq]
    dsimp only
    by_cases hdoc : truthy filters.docId = true
    · rw [if_pos hdoc, mem_filter, hdoc, Bool.true_and, and_assoc, decide_eq_true_eq]
      refine and_congr_right fun _ => ?_
      by_cases hid : filters.docId = some metadata.docId
      · simp [hid]
      · simp [hid]
    · rw [if_neg hdoc, Bool.eq_false_iff.mpr hdoc, Bool.false_and, if_neg Bool.false_ne_true]

end ServerNetworkContentAddressedStore

theorem mem_scanned_client :
    metadata ∈ ClientNetworkContentAddressedStore.scanned localeCompare
        (ServerNetworkContentAddressedStore.handleFindNewEntries stored revoked) filters ↔
      metadata ∈ stored ∧ metadataMatchesScanFilters metadata.toStoreEntryMetadata filters = true
        ∧ isServable revoked metadata = true := by
  unfold ClientNetworkContentAddressedStore.scanned
    ServerNetworkContentAddressedStore.handleFindNewEntries
  rw [mem_sortBy, mem_filter, mem_filter, and_assoc]
  refine and_congr_right fun _ => and_comm.trans (and_congr_left fun _ => ?_)
  cases filters with
  | none => exact Iff.rfl
  | some filters => rw [Option.all_some, matches_eq]

/-- Entries with distinct ids stand at distinct positions. -/
theorem pairwise_pos_ne {l : List KeyedMetadata} (hids : (stored.map fun m => m.id).Nodup)
    (hl : l.Nodup) (hsub : l ⊆ stored) : l.Pairwise fun a b => a.pos ≠ b.pos := by
  refine hl.imp_of_mem fun {a b} ha hb hne hpos => hne ?_
  have hid : a.id = b.id := congrArg (fun p => (ofLex p).2) hpos
  exact inj_on_of_nodup_map hids (hsub ha) (hsub hb) hid

end

/-! ## Paging -/

section

variable {sorted : List KeyedMetadata} {sent : KeyedMetadata → Bool}

theorem scanStart_eq (cursor : Option StoreScanCursor) :
    scanStart sorted cursor
      = ScanFeed.resumeAt (fun m : KeyedMetadata => m.pos) sorted
        (cursor.map StoreScanCursor.pos) := by
  cases cursor with
  | none => rfl
  | some cursor =>
    exact congrArg (fun p => sorted.findIdx? p) (funext fun metadata => isAfterScanCursor_eq _ _)

variable (sorted sent) in
/-- A page is one cut from the list. -/
theorem pageBehind_spec (cursor : Option StoreScanCursor) (limit : ℕ) :
    let page := ScanFeed.cutPage (fun m : KeyedMetadata => m.pos) sent sorted
      (cursor.map StoreScanCursor.pos) limit
    (pageBehind sorted sent cursor limit).entries = page.entries
      ∧ (pageBehind sorted sent cursor limit).nextCursor.map StoreScanCursor.pos = page.next
      ∧ (pageBehind sorted sent cursor limit).hasMore = page.hasMore := by
  unfold pageBehind ScanFeed.cutPage
  rw [← scanStart_eq]
  cases scanStart sorted cursor with
  | none => exact ⟨rfl, rfl, rfl⟩
  | some start =>
    refine ⟨rfl, ?_, rfl⟩
    dsimp only
    rw [Option.map_or, Option.map_map]
    rfl

/-- **Paging is draining** the list. -/
theorem pageThrough_eq_drain {L : Type} {scan : Option StoreScanCursor → L → KeyedScanResult}
    {size : L → ℕ} (hscan : ∀ cursor limit, scan cursor limit
      = pageBehind sorted sent cursor (size limit)) (fuel : ℕ) (limits : ℕ → L)
    (cursor : Option StoreScanCursor) :
    pageThrough scan fuel limits cursor
      = ScanFeed.drain (ScanFeed.cutPage (fun m : KeyedMetadata => m.pos) sent sorted) fuel
        (fun k => size (limits k)) (cursor.map StoreScanCursor.pos) := by
  induction fuel generalizing limits cursor with
  | zero => rfl
  | succ fuel ih =>
    obtain ⟨hentries, hnext, hmore⟩ := pageBehind_spec sorted sent cursor (size (limits 0))
    rw [pageThrough, ScanFeed.drain, hscan, ih, hnext, hentries, hmore]

/-- **Paging is complete** if what matters of the list is sorted by code units. -/
theorem complete_iff {L : Type} (scan : Option StoreScanCursor → L → KeyedScanResult)
    (size : L → ℕ) {stored : List KeyedMetadata} {revoked : List JSString}
    {filters : Option StoreScanFilters}
    (hscan : ∀ cursor limit, scan cursor limit = pageBehind sorted sent cursor (size limit))
    (hsize : ∀ limit, 1 ≤ size limit) (hone : ∃ limit, size limit = 1)
    (htwo : ∃ limit, size limit = 2) (hids : (stored.map fun m => m.id).Nodup)
    (hnodup : sorted.Nodup) (hsub : sorted ⊆ stored)
    (hmem : ∀ metadata, metadata ∈ sorted ∧ sent metadata = true ↔ metadata ∈ stored
      ∧ metadataMatchesScanFilters metadata.toStoreEntryMetadata filters = true
      ∧ isServable revoked metadata = true) :
    Complete stored revoked filters scan ↔
      RisesByCodeUnits (ScanFeed.resumable sent sorted) := by
  have hshows (shown : List KeyedMetadata) :
      Shows stored revoked filters shown ↔ shown.Perm (sorted.filter sent) := by
    have hmem' (metadata : KeyedMetadata) : metadata ∈ sorted.filter sent ↔ _ :=
      mem_filter.trans (hmem metadata)
    constructor
    · rintro ⟨hshown, hall⟩
      exact (perm_ext_iff_of_nodup hshown (hnodup.filter _)).mpr fun metadata =>
        (hall metadata).trans (hmem' metadata).symm
    · exact fun hperm => ⟨hperm.nodup_iff.mpr (hnodup.filter _), fun metadata =>
        hperm.mem_iff.trans (hmem' metadata)⟩
  constructor
  · intro h
    by_contra hfalls
    obtain ⟨limits, hlimits, hnot⟩ :=
      ScanFeed.exists_not_drains (pairwise_pos_ne hids hnodup hsub) hfalls
    have hchoose : ∀ k, ∃ limit, size limit = limits k := fun k =>
      (hlimits k).elim (fun hk => hk ▸ hone) fun hk => hk ▸ htwo
    choose asked hasked using hchoose
    obtain ⟨fuel, shown, hshown, hall⟩ := h asked
    rw [pageThrough_eq_drain hscan, funext hasked] at hshown
    exact hnot ⟨fuel, shown, hshown, (hshows shown).mp hall⟩
  · intro hrises limits
    obtain ⟨fuel, shown, hshown, hperm⟩ :=
      ScanFeed.drains_of_rises hrises fun k => hsize (limits k)
    refine ⟨fuel, shown, ?_, (hshows shown).mpr hperm⟩
    rw [pageThrough_eq_drain hscan]
    exact hshown

end

namespace ServerNetworkContentAddressedStore

theorem one_le_effectiveLimit (limit : Option ℚ) : 1 ≤ effectiveLimit limit := le_max_left _ _

theorem effectiveLimit_ofNat {n : ℕ} (hpos : 1 ≤ n) (hle : n ≤ MAX_SCAN_PAGE_SIZE) :
    effectiveLimit (some (n : ℚ)) = n := by
  unfold effectiveLimit
  rw [Option.elim_some, Int.floor_natCast, min_eq_left (by exact_mod_cast hle), Int.toNat_natCast,
    max_eq_right hpos]

theorem scan_complete_iff (localeCompare : JSString → JSString → ℤ) {stored : List KeyedMetadata}
    (hids : (stored.map fun m => m.id).Nodup) (filters : Option StoreScanFilters)
    (revoked : List JSString) :
    Complete stored revoked filters (handleScanEntriesSince localeCompare stored revoked filters) ↔
      RisesByCodeUnits (ScanFeed.resumable (isServable revoked)
        (scanned localeCompare stored filters)) := by
  have hstored : stored.Nodup := List.Nodup.of_map _ hids
  refine complete_iff _ effectiveLimit (fun _ _ => rfl) one_le_effectiveLimit
    ⟨_, effectiveLimit_ofNat le_rfl (by decide)⟩
    ⟨_, effectiveLimit_ofNat (n := 2) (by decide) (by decide)⟩
    hids ?_ (fun m hm => (mem_scanned.mp hm).1) fun m => ?_
  · refine (perm_sortBy _ _).nodup_iff.mpr (List.Nodup.filter _ ?_)
    split
    · split_ifs
      · exact hstored.filter _
      · exact hstored
    · exact hstored
  · rw [mem_scanned, and_assoc]

end ServerNetworkContentAddressedStore

namespace ClientNetworkContentAddressedStore

open ServerNetworkContentAddressedStore (handleFindNewEntries)

/-- Where all is shown, all matters. -/
theorem resumable_true (l : List KeyedMetadata) : ScanFeed.resumable (fun _ => true) l = l := by
  rcases eq_nil_or_concat l with rfl | ⟨front, z, rfl⟩
  · rfl
  · rw [concat_eq_append, ScanFeed.resumable, getLast?_concat]
    exact if_pos rfl

theorem scan_complete_iff (localeCompare : JSString → JSString → ℤ) {stored : List KeyedMetadata}
    (hids : (stored.map fun m => m.id).Nodup) (filters : Option StoreScanFilters)
    (revoked : List JSString) :
    Complete stored revoked filters (scanEntriesSince localeCompare stored revoked filters) ↔
      RisesByCodeUnits
        (scanned localeCompare (handleFindNewEntries stored revoked) filters) := by
  have hstored : stored.Nodup := List.Nodup.of_map _ hids
  rw [← resumable_true (scanned localeCompare (handleFindNewEntries stored revoked) filters)]
  refine complete_iff _ (fun limit : ℕ+ => (limit : ℕ)) (fun _ _ => rfl) (fun limit => limit.pos)
    ⟨1, rfl⟩ ⟨2, rfl⟩ hids ?_ (fun m hm => (mem_scanned_client.mp hm).1) fun m => ?_
  · exact (perm_sortBy _ _).nodup_iff.mpr ((hstored.filter _).filter _)
  · rw [mem_scanned_client, and_iff_left rfl]

end ClientNetworkContentAddressedStore

/-- **The fallbacks are complete** just if `localeCompare` sorts the ids that share a receipt order
by their code units.  On the server this leaves out a revoked entry that is the last one. -/
theorem pagesComplete_iff (localeCompare : JSString → JSString → ℤ) (stored : List KeyedMetadata)
    (hids : (stored.map fun m => m.id).Nodup) (filters : Option StoreScanFilters)
    (revoked : List JSString) :
    (Complete stored revoked filters (ServerNetworkContentAddressedStore.handleScanEntriesSince
        localeCompare stored revoked filters)
      ↔ RisesByCodeUnits (ScanFeed.resumable (isServable revoked)
        (ServerNetworkContentAddressedStore.scanned localeCompare stored filters)))
    ∧ (Complete stored revoked filters (ClientNetworkContentAddressedStore.scanEntriesSince
        localeCompare stored revoked filters)
      ↔ RisesByCodeUnits (ClientNetworkContentAddressedStore.scanned localeCompare
        (ServerNetworkContentAddressedStore.handleFindNewEntries stored revoked) filters)) :=
  ⟨ServerNetworkContentAddressedStore.scan_complete_iff localeCompare hids filters revoked,
    ClientNetworkContentAddressedStore.scan_complete_iff localeCompare hids filters revoked⟩

/-- Words of ASCII letters as the root collation has them: by letter, small ones first. -/
def compareWords (s t : JSString) : ℤ :=
  let fold := fun word : JSString => word.units.map fun unit =>
    if 0x41 ≤ unit.val ∧ unit.val ≤ 0x5A then unit + 0x20 else unit
  if fold s < fold t then -1
  else if fold t < fold s then 1
  else if t < s then -1
  else if s < t then 1
  else 0

/-- An entry without a receipt order. -/
def unnumbered (id : JSString) : KeyedMetadata where
  entryType := .docChange
  id := id
  contentHash := id
  docId := "doc"
  dependencyIds := []
  snapshotHeadEntryIds := none
  createdAt := 0
  receiptOrder := none
  receivedAt := none
  receivedByPublicKey := none
  receivedDateSignature := none
  receiptScheme := none
  decryptionKeyId := "default"

theorem pagesComplete_iff_mixedCase :
    ([unnumbered "a", unnumbered "B"].map fun m => m.id).Nodup
    ∧ (Complete [unnumbered "a", unnumbered "B"] [] none
        (ServerNetworkContentAddressedStore.handleScanEntriesSince compareWords
          [unnumbered "a", unnumbered "B"] [] none)
      ↔ RisesByCodeUnits (ScanFeed.resumable (isServable [])
        (ServerNetworkContentAddressedStore.scanned compareWords
          [unnumbered "a", unnumbered "B"] none))) :=
  have hids : ([unnumbered "a", unnumbered "B"].map fun m => m.id).Nodup := by decide +kernel
  ⟨hids, (pagesComplete_iff compareWords _ hids none []).1⟩

/-- `a` comes before `B`, but its code unit behind: pages of one entry end with `a`. -/
theorem not_complete_mixedCase :
    ([unnumbered "a", unnumbered "B"].map fun m => m.id).Nodup
    ∧ ¬ Complete [unnumbered "a", unnumbered "B"] [] none
      (ServerNetworkContentAddressedStore.handleScanEntriesSince compareWords
        [unnumbered "a", unnumbered "B"] [] none)
    ∧ ¬ Complete [unnumbered "a", unnumbered "B"] [] none
      (ClientNetworkContentAddressedStore.scanEntriesSince compareWords
        [unnumbered "a", unnumbered "B"] [] none) := by
  have hids : ([unnumbered "a", unnumbered "B"].map fun m => m.id).Nodup := by decide +kernel
  refine ⟨hids, ?_, ?_⟩
  · rw [ServerNetworkContentAddressedStore.scan_complete_iff compareWords hids]
    decide +kernel
  · rw [ClientNetworkContentAddressedStore.scan_complete_iff compareWords hids]
    decide +kernel

end MindooDB
