import MindooDB.Store.InMemory
import MindooDB.Store.Ledger

/-!
# Store/InMemoryRefinement — the in-memory store keeps its ledger

Each call of the store's API is an operation of the `Ledger`, and the five indexes of the store are
functions of the ledger's live entries.  `represents_run` says so of every sequence of calls; the
bytes need one assumption more, that equal content hashes come with equal bytes (`Payloads`).
-/

namespace MindooDB

open InMemoryStore Ledger LinkedMap List Option

/-- The ledger a call leaves behind. -/
def Ledger.call (a : Ledger) : StoreCall → Ledger
  | .putEntries entries => entries.foldl Ledger.put a
  | .applyWitnessReceipts receipts => receipts.foldl witness a
  | .purgeDocHistory docId => a.purge docId
  | .clearAllLocalData _ => Ledger.initial
  | .scanEntriesSince _ _ _ => a

/-- **The ledger of a sequence of calls.** -/
def Ledger.run (calls : List StoreCall) : Ledger := calls.foldl Ledger.call Ledger.initial

/-! ## The metadata by id -/

/-- A map lists the metadata of the live entries. -/
def Ledger.ListedBy (a : Ledger) (m : LinkedMap JSString StoreEntryMetadata) : Prop :=
  m.toList = a.live.map fun e => (e.id, e.toStoreEntryMetadata)

variable {entry : StoreEntry}

namespace Ledger.ListedBy

variable {a : Ledger} {m : LinkedMap JSString StoreEntryMetadata}

section

variable (h : a.ListedBy m)

include h

theorem get? (id : JSString) :
    m.get? id = (a.find? id).map StoreEntry.toStoreEntryMetadata := by
  refine Option.ext fun metadata => ?_
  rw [← mem_toList_iff, h]
  simp only [List.mem_map, Prod.mk.injEq, map_eq_some_iff, find?_eq_some_iff]
  constructor
  · rintro ⟨e, he, hi, hm⟩
    exact ⟨e, ⟨he, hi⟩, hm⟩
  · rintro ⟨e, ⟨he, hi⟩, hm⟩
    exact ⟨e, he, hi, hm⟩

theorem has (id : JSString) : m.has id = (a.find? id).isSome := by
  rw [LinkedMap.has, h.get?, isSome_map]

theorem values : m.values = a.live.map StoreEntry.toStoreEntryMetadata := by
  rw [LinkedMap.values, h, List.map_map]
  rfl

theorem notMem_keys {id : JSString} (hid : a.find? id = none) : id ∉ m.keys := by
  rw [notMem_keys_iff, h.get?, hid, map_none]

theorem put (hf : a.find? entry.id = none) :
    (a.put entry).ListedBy (m.set entry.id (entry.toStoreEntryMetadata.withReceiptOrder a.next)) := by
  rw [ListedBy, live_put hf, map_append, ← h]
  exact toList_set_of_notMem _ _ (h.notMem_keys hf)

/-- The re-stamped entry takes the place of the old one. -/
theorem witness {receipt : StoreEntryMetadata} (hnews : a.news receipt = true)
    {existing : StoreEntryMetadata} (he : m.get? receipt.id = some existing) :
    (a.witness receipt).ListedBy (m.set receipt.id (existing.withWitness receipt a.next)) := by
  rw [ListedBy, live_witness hnews, toList_set_of_mem _ _ (mem_keys_iff.mpr ⟨_, he⟩), h, List.map_map,
    List.map_map]
  refine map_congr_left fun e hmem => ?_
  by_cases hid : e.id = receipt.id
  · have hfind : a.find? receipt.id = some e := find?_eq_some_iff.mpr ⟨hmem, hid⟩
    rw [h.get?, hfind, map_some, Option.some.injEq] at he
    simp [hid, rewitness, ← he]
  · simp [hid, rewitness]

theorem drop (id : JSString) : (a.drop id).ListedBy (m.delete id) := by
  have hlist : m.toList = a.live.map fun e => (e.id, e.toStoreEntryMetadata) := h
  simp [ListedBy, LinkedMap.delete, hlist, List.filter_map, Ledger.drop, Ledger.restrict,
    Function.comp_def]

theorem news (receipt : StoreEntryMetadata) :
    a.news receipt = (decide (receipt.receivedAt ≠ none) &&
      (m.get? receipt.id).any fun existing => !existing.sameWitness receipt) := by
  rw [Ledger.news, h.get?]
  cases a.find? receipt.id <;> rfl

end

end Ledger.ListedBy

namespace InMemoryStore

/-- What the store has to say of its live entries, documents apart. -/
structure Tracks (s : InMemoryStore) (a : Ledger) : Prop where
  entries : s.entries.toList = a.live.map fun e => (e.id, e.toStoreEntryMetadata)
  next : s.nextReceiptOrder = a.next
  refCount : ∀ h, s.contentRefCount.get? h
    = if a.references h = 0 then none else some (a.references h : ℤ)
  content : ∀ h, s.contentStore.has h = decide (a.references h ≠ 0)

/-- **The store represents the ledger.** -/
structure Represents (s : InMemoryStore) (a : Ledger) : Prop extends Tracks s a where
  docIndex : ∀ d, (s.docIndex.get? d).map LinkedSet.toList
    = if a.idsOf d = [] then none else some (a.idsOf d)

variable {s : InMemoryStore} {a : Ledger}

namespace Tracks

theorem get?_entries (h : Tracks s a) (id : JSString) :
    s.entries.get? id = (a.find? id).map StoreEntry.toStoreEntryMetadata :=
  ListedBy.get? h.entries id

theorem has_entries (h : Tracks s a) (id : JSString) : s.entries.has id = (a.find? id).isSome :=
  ListedBy.has h.entries id

theorem values_entries (h : Tracks s a) :
    s.entries.values = a.live.map StoreEntry.toStoreEntryMetadata :=
  ListedBy.values h.entries

/-- The count of a hash, as the code reads it. -/
theorem orFalsy_refCount (h : Tracks s a) (hash : JSString) (d : ℤ) :
    orFalsy (s.contentRefCount.get? hash) d
      = if a.references hash = 0 then d else (a.references hash : ℤ) := by
  rw [h.refCount]
  split
  · rfl
  · rename_i hne
    rw [orFalsy, if_neg (by exact_mod_cast hne)]

end Tracks

/-! ## Storing -/

theorem Tracks.putEntry (h : Tracks s a) (entry : StoreEntry) :
    Tracks (s.putEntry entry) (a.put entry) := by
  rw [InMemoryStore.putEntry, h.has_entries]
  rcases hf : a.find? entry.id with _ | e
  swap
  · rw [put_of_find?_eq_some hf]
    simpa using h
  simp only [isSome_none, Bool.false_eq_true, if_false]
  constructor
  · simp only [h.next]
    exact ListedBy.put h.entries hf
  · simp only [next_put hf, h.next]
  · intro hash
    simp only [references_put hf, h.orFalsy_refCount, get?_set]
    by_cases hh : hash = entry.contentHash
    · subst hh
      by_cases h0 : a.references entry.contentHash = 0 <;> simp [h0]
    · simp [hh, Ne.symm hh, h.refCount]
  · intro hash
    rw [has_set_of_absent, h.content, references_put hf]
    by_cases hh : hash = entry.contentHash <;> simp [hh, eq_comm]

theorem Represents.putEntry (h : Represents s a) (entry : StoreEntry) :
    Represents (s.putEntry entry) (a.put entry) := by
  refine ⟨h.toTracks.putEntry entry, fun d => ?_⟩
  rw [InMemoryStore.putEntry, h.has_entries]
  rcases hf : a.find? entry.id with _ | e
  swap
  · rw [put_of_find?_eq_some hf]
    simpa using h.docIndex d
  simp only [isSome_none, Bool.false_eq_true, if_false, get?_set, idsOf_put hf]
  split
  · rename_i hd
    subst hd
    have hids : ((s.docIndex.get? entry.docId).getD ∅).toList = a.idsOf entry.docId := by
      have := h.docIndex entry.docId
      rcases hg : s.docIndex.get? entry.docId with _ | ids
      · rw [hg] at this
        by_cases h0 : a.idsOf entry.docId = []
        · simp [h0]
        · simp [h0] at this
      · rw [hg] at this
        by_cases h0 : a.idsOf entry.docId = []
        · simp [h0] at this
        · simpa [h0] using this
    have hnew : entry.id ∉ (s.docIndex.get? entry.docId).getD ∅ := by
      rw [LinkedSet.mem_def, hids, mem_idsOf]
      rintro ⟨e, he, -⟩
      simp [hf] at he
    simp [LinkedSet.toList_add, hnew, hids]
  · rename_i hd
    simp [Ne.symm hd, h.docIndex]

theorem Represents.foldl_putEntry (h : Represents s a) (entries : List StoreEntry) :
    Represents (entries.foldl InMemoryStore.putEntry s) (entries.foldl Ledger.put a) := by
  induction entries generalizing s a with
  | nil => exact h
  | cons entry entries ih => exact ih (h.putEntry entry)

/-! ## Re-stamping -/

theorem Represents.applyWitnessReceipt {s : InMemoryStore × Bool} (h : Represents s.1 a)
    (receipt : StoreEntryMetadata) :
    Represents (InMemoryStore.applyWitnessReceipt s receipt).1 (a.witness receipt) := by
  have hnews := ListedBy.news h.entries receipt
  rw [InMemoryStore.applyWitnessReceipt]
  by_cases hat : receipt.receivedAt = none
  · rw [if_pos hat, witness_of_not_news (by simp [hnews, hat])]
    exact h
  rw [if_neg hat]
  rcases he : s.1.entries.get? receipt.id with _ | existing
  · rw [witness_of_not_news (by simp [hnews, he])]
    exact h
  by_cases hsame : existing.sameWitness receipt = true
  · rw [witness_of_not_news (by simp [hnews, he, hsame])]
    simpa [hsame] using h
  have hyes : a.news receipt = true := by simp [hnews, he, hsame, hat]
  simp only [hsame, Bool.false_eq_true, if_false]
  refine ⟨⟨?_, ?_, fun hash => ?_, fun hash => ?_⟩, fun d => ?_⟩
  · simp only [h.next]
    exact ListedBy.witness h.entries hyes he
  · simp only [h.next, next_witness hyes]
  · simpa only [references_witness] using h.refCount hash
  · simpa only [references_witness] using h.content hash
  · simpa only [idsOf_witness] using h.docIndex d

theorem Represents.foldl_applyWitnessReceipt {s : InMemoryStore × Bool} (h : Represents s.1 a)
    (receipts : List StoreEntryMetadata) :
    Represents (receipts.foldl InMemoryStore.applyWitnessReceipt s).1
      (receipts.foldl witness a) := by
  induction receipts generalizing s a with
  | nil => exact h
  | cons receipt receipts ih => exact ih (h.applyWitnessReceipt receipt)

/-! ## Purging

The loop drops the entries of the document one by one, so it is the ledger restricted to the ids not
dropped yet; the document index is only touched at the end. -/

theorem Tracks.purgeEntry (h : Tracks s a) (id : JSString) :
    Tracks (s.purgeEntry id) (a.drop id) := by
  rw [InMemoryStore.purgeEntry, h.get?_entries]
  rcases hf : a.find? id with _ | e
  · rw [Ledger.drop, restrict_congr (q := fun _ => true) fun e he => by
      simpa using find?_eq_none_iff.mp hf e he, restrict_true]
    exact h
  obtain ⟨he, rfl⟩ := find?_eq_some_iff.mp hf
  have hentries := ListedBy.drop h.entries e.id
  have hpos := (references_pos he).ne'
  have hrefs := references_drop he
  have hself : a.references e.contentHash
      = (a.drop e.id).references e.contentHash + 1 := by
    rw [hrefs, if_pos rfl]
  have hother : ∀ h, h ≠ e.contentHash →
      a.references h = (a.drop e.id).references h := fun h hne => by
    rw [hrefs, if_neg (Ne.symm hne), Nat.add_zero]
  simp only [map_some, h.orFalsy_refCount, if_neg hpos]
  split
  · -- The last reference goes, and the bytes with it.
    rename_i hle
    refine ⟨hentries, h.next, fun hash => ?_, fun hash => ?_⟩
    · rw [get?_delete]
      by_cases hh : hash = e.contentHash
      · subst hh
        rw [if_pos rfl, if_pos (by omega)]
      · rw [if_neg hh, h.refCount, hother hash hh]
    · rw [has_delete]
      by_cases hh : hash = e.contentHash
      · subst hh
        simp only [ne_eq, not_true, decide_false, Bool.false_and]
        exact (decide_eq_false (by omega)).symm
      · simp [hh, h.content, hother hash hh]
  · rename_i hgt
    refine ⟨hentries, h.next, fun hash => ?_, fun hash => ?_⟩
    · rw [get?_set]
      by_cases hh : hash = e.contentHash
      · subst hh
        rw [if_pos rfl, if_neg (by omega)]
        congr 1
        omega
      · rw [if_neg hh, h.refCount, hother hash hh]
    · rw [h.content]
      by_cases hh : hash = e.contentHash
      · subst hh
        exact decide_eq_decide.mpr (by omega)
      · rw [hother hash hh]

theorem docIndex_purgeEntry (s : InMemoryStore) (id : JSString) :
    (s.purgeEntry id).docIndex = s.docIndex := by
  unfold InMemoryStore.purgeEntry
  split
  · rfl
  · simp only
    split <;> rfl

theorem Tracks.foldl_purgeEntry (h : Tracks s a) (ids : List JSString) :
    Tracks (ids.foldl InMemoryStore.purgeEntry s) (a.restrict fun e => e.id ∉ ids) := by
  induction ids generalizing s a with
  | nil => simpa [restrict_true] using h
  | cons id ids ih =>
    have := ih (h.purgeEntry id)
    rw [Ledger.drop, restrict_restrict] at this
    rw [restrict_congr (q := fun e => decide (e.id ∉ ids) && decide (e.id ≠ id))
      fun e _ => by simp [Bool.and_comm]]
    exact this

theorem docIndex_foldl_purgeEntry (s : InMemoryStore) (ids : List JSString) :
    (ids.foldl InMemoryStore.purgeEntry s).docIndex = s.docIndex := by
  induction ids generalizing s with
  | nil => rfl
  | cons id ids ih => rw [foldl_cons, ih, docIndex_purgeEntry]

/-- Dropping the ids of a document is dropping its entries. -/
theorem restrict_idsOf (a : Ledger) (docId : JSString) :
    (a.restrict fun e => e.id ∉ a.idsOf docId) = a.purge docId := by
  refine restrict_congr fun e he => decide_eq_decide.mpr (not_congr ?_)
  rw [mem_idsOf]
  refine ⟨fun ⟨e', he', hd⟩ => ?_, fun hd => ⟨e, find?_eq_some_iff.mpr ⟨he, rfl⟩, hd⟩⟩
  obtain ⟨hmem, hid⟩ := find?_eq_some_iff.mp he'
  rw [eq_of_id_eq he hmem hid.symm, hd]

theorem Represents.purgeDocHistory (h : Represents s a) (docId : JSString) :
    Represents (s.purgeDocHistory docId) (a.purge docId) := by
  have hdoc := h.docIndex docId
  by_cases hids : a.idsOf docId = []
  · have hnone : s.docIndex.get? docId = none := by simpa [hids] using hdoc
    rw [InMemoryStore.purgeDocHistory, hnone, ← restrict_idsOf, hids]
    simpa [restrict_true] using h
  rw [if_neg hids, map_eq_some_iff] at hdoc
  obtain ⟨ids, hget, hlist⟩ := hdoc
  have hsize : ids.size ≠ 0 := by simpa [LinkedSet.size, hlist] using hids
  have htracks := h.toTracks.foldl_purgeEntry ids.toList
  rw [hlist, restrict_idsOf] at htracks
  rw [InMemoryStore.purgeDocHistory, hget]
  simp only [if_neg hsize, hlist]
  refine ⟨⟨htracks.entries, htracks.next, htracks.refCount, htracks.content⟩, fun d => ?_⟩
  simp only [docIndex_foldl_purgeEntry, get?_delete, idsOf_purge]
  by_cases hd : d = docId
  · simp [hd]
  · simpa [hd] using h.docIndex d

/-! ## Runs -/

theorem represents_initial (epoch : JSString) : Represents { storeEpoch := epoch } Ledger.initial where
  entries := rfl
  next := rfl
  refCount _ := rfl
  content _ := rfl
  docIndex _ := rfl

theorem Represents.congr {s s' : InMemoryStore} (h : Represents s a) (he : s'.entries = s.entries)
    (hn : s'.nextReceiptOrder = s.nextReceiptOrder) (hr : s'.contentRefCount = s.contentRefCount)
    (hc : s'.contentStore = s.contentStore) (hd : s'.docIndex = s.docIndex) : Represents s' a where
  entries := he ▸ h.entries
  next := hn ▸ h.next
  refCount := hr ▸ h.refCount
  content := hc ▸ h.content
  docIndex := hd ▸ h.docIndex

/-- **A call of the store is a call of the ledger.** -/
theorem Represents.call (h : Represents s a) (localeCompare : JSString → JSString → ℤ)
    (c : StoreCall) : Represents (s.call localeCompare c) (a.call c) := by
  cases c with
  | putEntries entries => exact (h.foldl_putEntry entries).congr rfl rfl rfl rfl rfl
  | applyWitnessReceipts receipts =>
    have hrun := h.foldl_applyWitnessReceipt (s := (s, false)) receipts
    simp only [InMemoryStore.call, applyWitnessReceipts]
    split
    · exact hrun.congr rfl rfl rfl rfl rfl
    · exact hrun
  | purgeDocHistory docId => exact h.purgeDocHistory docId
  | clearAllLocalData epoch => exact represents_initial epoch
  | scanEntriesSince cursor limit filters =>
    simp only [InMemoryStore.call, scanEntriesSince]
    split
    · exact h
    · unfold getSortedEntries
      split
      · exact h
      · exact h.congr rfl rfl rfl rfl rfl

/-- **The store represents its ledger in every reachable state.** -/
theorem represents_run (localeCompare : JSString → JSString → ℤ) (epoch : JSString)
    (calls : List StoreCall) : Represents (run localeCompare epoch calls) (Ledger.run calls) := by
  suffices ∀ s a, Represents s a →
      Represents (calls.foldl (InMemoryStore.call localeCompare) s) (calls.foldl Ledger.call a) from
    this _ _ (represents_initial epoch)
  induction calls with
  | nil => exact fun _ _ h => h
  | cons c calls ih => exact fun s a h => ih _ _ (h.call localeCompare c)

/-! ## The payloads

An entry's payload is dropped with its last reference, and never overwritten: so what the content
store holds under a hash is what some entry brought along with it. -/

/-- The entries a sequence of calls hands to `putEntries`. -/
def offered (calls : List StoreCall) : List StoreEntry :=
  calls.flatMap fun
    | .putEntries entries => entries
    | _ => []

/-- The bytes offered first under a content hash. -/
def bytesOf (offers : List StoreEntry) (h : JSString) : List UInt8 :=
  ((offers.find? fun e => e.contentHash = h).map StoreEntry.encryptedData).getD []

/-- Equal content hashes carry equal bytes. -/
def ContentAddressed (offers : List StoreEntry) : Prop :=
  ∀ e ∈ offers, ∀ e' ∈ offers, e.contentHash = e'.contentHash → e.encryptedData = e'.encryptedData

instance (offers : List StoreEntry) : Decidable (ContentAddressed offers) :=
  inferInstanceAs (Decidable (∀ e ∈ offers, ∀ e' ∈ offers, _ → _))

theorem ContentAddressed.bytesOf_eq {offers : List StoreEntry} (h : ContentAddressed offers)
    {e : StoreEntry} (he : e ∈ offers) : bytesOf offers e.contentHash = e.encryptedData := by
  unfold bytesOf
  rcases hf : offers.find? fun e' => e'.contentHash = e.contentHash with _ | e'
  · simpa using find?_eq_none.mp hf e he
  · simpa [hf] using h e' (mem_of_find?_eq_some hf) e he (by simpa using find?_some hf)

/-- Every live entry was offered, under its id and document and with its payload. -/
def DrawnFrom (offers : List StoreEntry) (a : Ledger) : Prop :=
  ∀ e ∈ a.live, ∃ e' ∈ offers, e'.id = e.id ∧ e'.docId = e.docId ∧ e'.contentHash = e.contentHash ∧
    e'.encryptedData = e.encryptedData

/-- The content store holds nothing but offered bytes. -/
def HoldsBytes (bytes : JSString → List UInt8) (s : InMemoryStore) : Prop :=
  ∀ h v, s.contentStore.get? h = some v → v = bytes h

section Payloads

variable {offers : List StoreEntry} {bytes : JSString → List UInt8}

theorem drawnFrom_put (h : DrawnFrom offers a) (hentry : entry ∈ offers) :
    DrawnFrom offers (a.put entry) := by
  rcases hf : a.find? entry.id with _ | e
  · intro e he
    rw [live_put hf, mem_append, mem_singleton] at he
    rcases he with he | rfl
    · exact h e he
    · exact ⟨entry, hentry, rfl, rfl, rfl, rfl⟩
  · rwa [put_of_find?_eq_some hf]

theorem drawnFrom_witness (h : DrawnFrom offers a) (receipt : StoreEntryMetadata) :
    DrawnFrom offers (a.witness receipt) := by
  by_cases hn : a.news receipt = true
  · intro e he
    rw [live_witness hn, List.mem_map] at he
    obtain ⟨e, he, rfl⟩ := he
    simpa using h e he
  · rwa [witness_of_not_news (by simpa using hn)]

theorem drawnFrom_call (h : DrawnFrom offers a) {c : StoreCall}
    (hc : ∀ entry ∈ offered [c], entry ∈ offers) : DrawnFrom offers (a.call c) := by
  cases c with
  | putEntries entries =>
    simp only [offered, flatMap_cons, flatMap_nil, append_nil] at hc
    rw [Ledger.call]
    induction entries generalizing a with
    | nil => exact h
    | cons entry entries ih =>
      exact ih (drawnFrom_put h (hc entry mem_cons_self)) fun e he => hc e (mem_cons_of_mem _ he)
  | applyWitnessReceipts receipts =>
    rw [Ledger.call]
    clear hc
    induction receipts generalizing a with
    | nil => exact h
    | cons receipt receipts ih => exact ih (drawnFrom_witness h receipt)
  | purgeDocHistory docId => exact fun e he => h e (mem_of_mem_filter he)
  | clearAllLocalData epoch => exact fun e he => by simp [Ledger.call, Ledger.initial] at he
  | scanEntriesSince cursor limit filters => exact h

theorem holdsBytes_putEntry (h : HoldsBytes bytes s)
    (hentry : entry.encryptedData = bytes entry.contentHash) :
    HoldsBytes bytes (s.putEntry entry) := by
  intro hash v
  rw [InMemoryStore.putEntry]
  split
  · exact h hash v
  · simp only
    split
    · exact h hash v
    · rw [get?_set]
      split
      · rintro ⟨⟩
        simp_all
      · exact h hash v

theorem contentStore_applyWitnessReceipt (s : InMemoryStore × Bool) (receipt : StoreEntryMetadata) :
    (InMemoryStore.applyWitnessReceipt s receipt).1.contentStore = s.1.contentStore := by
  unfold InMemoryStore.applyWitnessReceipt
  split
  · rfl
  · split
    · rfl
    · split <;> rfl

theorem holdsBytes_purgeEntry (h : HoldsBytes bytes s) (id : JSString) :
    HoldsBytes bytes (s.purgeEntry id) := by
  intro hash v
  rw [InMemoryStore.purgeEntry]
  split
  · exact h hash v
  · simp only
    split
    · rw [get?_delete]
      split
      · simp
      · exact h hash v
    · exact h hash v

theorem holdsBytes_call (h : HoldsBytes bytes s) (localeCompare : JSString → JSString → ℤ)
    {c : StoreCall} (hc : ∀ entry ∈ offered [c], entry.encryptedData = bytes entry.contentHash) :
    HoldsBytes bytes (s.call localeCompare c) := by
  cases c with
  | putEntries entries =>
    simp only [offered, flatMap_cons, flatMap_nil, append_nil] at hc
    suffices HoldsBytes bytes (entries.foldl InMemoryStore.putEntry s) from this
    induction entries generalizing s with
    | nil => exact h
    | cons entry entries ih =>
      exact ih (holdsBytes_putEntry h (hc entry mem_cons_self))
        fun e he => hc e (mem_cons_of_mem _ he)
  | applyWitnessReceipts receipts =>
    have hcontent : ∀ p : InMemoryStore × Bool,
        (receipts.foldl InMemoryStore.applyWitnessReceipt p).1.contentStore = p.1.contentStore := by
      clear hc
      induction receipts with
      | nil => exact fun _ => rfl
      | cons receipt receipts ih =>
        exact fun p => (ih _).trans (contentStore_applyWitnessReceipt p receipt)
    have : (s.applyWitnessReceipts receipts).contentStore = s.contentStore := by
      rw [applyWitnessReceipts]
      simp only
      split <;> exact hcontent (s, false)
    intro hash v hv
    exact h hash v (this ▸ hv)
  | purgeDocHistory docId =>
    have hfold : ∀ ids : List JSString, ∀ s, HoldsBytes bytes s →
        HoldsBytes bytes (ids.foldl InMemoryStore.purgeEntry s) := by
      intro ids
      induction ids with
      | nil => exact fun _ h => h
      | cons id ids ih => exact fun s h => ih _ (holdsBytes_purgeEntry h id)
    rw [InMemoryStore.call, InMemoryStore.purgeDocHistory]
    split
    · exact h
    · split
      · exact h
      · exact hfold _ s h
  | clearAllLocalData epoch => exact fun hash v hv => by simp [InMemoryStore.call, clearAllLocalData] at hv
  | scanEntriesSince cursor limit filters =>
    simp only [InMemoryStore.call, scanEntriesSince]
    split
    · exact h
    · unfold getSortedEntries
      split <;> exact h

end Payloads

/-- What a run holds was offered. -/
theorem payloads_run (localeCompare : JSString → JSString → ℤ) (epoch : JSString)
    {calls : List StoreCall} (hbytes : ContentAddressed (offered calls)) :
    DrawnFrom (offered calls) (Ledger.run calls) ∧
      HoldsBytes (bytesOf (offered calls)) (run localeCompare epoch calls) := by
  suffices ∀ offers, ContentAddressed offers → (∀ e ∈ offered calls, e ∈ offers) → ∀ s a,
      DrawnFrom offers a → HoldsBytes (bytesOf offers) s →
      DrawnFrom offers (calls.foldl Ledger.call a) ∧
        HoldsBytes (bytesOf offers) (calls.foldl (InMemoryStore.call localeCompare) s) from
    this _ hbytes (fun _ h => h) _ _ (fun e he => by simp [Ledger.initial] at he)
      (fun h v hv => by simp at hv)
  clear hbytes
  intro offers hbytes hoffers
  induction calls with
  | nil => exact fun _ _ ha hs => ⟨ha, hs⟩
  | cons c calls ih =>
    have hcons : offered (c :: calls) = offered [c] ++ offered calls := by simp [offered]
    simp only [hcons, mem_append] at hoffers
    intro s a ha hs
    exact ih (fun e he => hoffers e (.inr he)) _ _
      (drawnFrom_call ha fun e he => hoffers e (.inl he))
      (holdsBytes_call hs localeCompare fun e he =>
        (hbytes.bytesOf_eq (hoffers e (.inl he))).symm)

/-! ## The indexes agree -/

/-- How many live entries carry a content hash. -/
def liveCount (s : InMemoryStore) (h : JSString) : ℕ :=
  s.entries.values.countP fun m => m.contentHash = h

/-- **The five indexes of a store agree with its live entries.** -/
structure Coherent (s : InMemoryStore) : Prop where
  keyed : ∀ id m, s.entries.get? id = some m → m.id = id
  refCount : ∀ h, s.contentRefCount.get? h = if s.liveCount h = 0 then none else some (s.liveCount h : ℤ)
  content : ∀ h, s.contentStore.has h = true ↔ ∃ m ∈ s.entries.values, m.contentHash = h
  docIndex : ∀ d id, (∃ ids, s.docIndex.get? d = some ids ∧ id ∈ ids)
    ↔ ∃ m, s.entries.get? id = some m ∧ m.docId = d
  noEmptySet : ∀ d ids, s.docIndex.get? d = some ids → ids ≠ ∅
  distinctOrders : s.entries.values.Pairwise fun m m' => m.receiptOrder ≠ m'.receiptOrder
  ordersBelow : ∀ m ∈ s.entries.values, ∃ r, m.receiptOrder = some r ∧ r < s.nextReceiptOrder

theorem Tracks.liveCount (h : Tracks s a) (hash : JSString) : s.liveCount hash = a.references hash := by
  rw [InMemoryStore.liveCount, h.values_entries, countP_map, Ledger.references]
  rfl

theorem Represents.idsOf (h : Represents s a) (d : JSString) {ids : LinkedSet JSString}
    (hids : s.docIndex.get? d = some ids) : ids.toList = a.idsOf d ∧ a.idsOf d ≠ [] := by
  have hd := h.docIndex d
  rw [hids, map_some] at hd
  split at hd
  · simp at hd
  · exact ⟨some.inj hd, ‹_›⟩

theorem Represents.coherent (h : Represents s a) : Coherent s where
  keyed id m hm := by
    rw [h.get?_entries, map_eq_some_iff] at hm
    obtain ⟨e, he, rfl⟩ := hm
    exact (find?_eq_some_iff.mp he).2
  refCount hash := by rw [h.refCount, h.toTracks.liveCount]
  content hash := by
    rw [h.content, ← h.toTracks.liveCount, decide_eq_true_iff, InMemoryStore.liveCount,
      ← Nat.pos_iff_ne_zero, countP_pos_iff]
    simp
  docIndex d id := by
    have hmem : (∃ m, s.entries.get? id = some m ∧ m.docId = d) ↔ id ∈ a.idsOf d := by
      rw [mem_idsOf, h.get?_entries]
      simp
    rw [hmem]
    refine ⟨fun ⟨ids, hids, hid⟩ => (h.idsOf d hids).1 ▸ hid, fun hid => ?_⟩
    have hd := h.docIndex d
    rw [if_neg (ne_nil_of_mem hid), map_eq_some_iff] at hd
    obtain ⟨ids, hids, hlist⟩ := hd
    exact ⟨ids, hids, LinkedSet.mem_def.mpr (hlist ▸ hid)⟩
  noEmptySet d ids hids := by
    rintro rfl
    exact (h.idsOf d hids).2 (h.idsOf d hids).1.symm
  distinctOrders := by
    rw [h.values_entries]
    refine pairwise_map.mpr (a.distinct.imp fun hne heq => hne.2 ?_)
    simp only [StoreEntryMetadata.order, heq]
  ordersBelow m hm := by
    rw [h.values_entries, List.mem_map] at hm
    obtain ⟨e, he, rfl⟩ := hm
    obtain ⟨r, hr, -, hlt⟩ := a.numbered e he
    exact ⟨r, hr, by rwa [h.next]⟩

/-- With the bytes in place, `getEntries` reads the ledger. -/
theorem Represents.getEntries_eq (h : Represents s a) {offers : List StoreEntry}
    (hoffers : ContentAddressed offers) (ha : DrawnFrom offers a)
    (hs : HoldsBytes (bytesOf offers) s) (ids : List JSString) :
    s.getEntries ids = ids.filterMap a.find? := by
  refine filterMap_congr fun id _ => ?_
  rw [h.get?_entries]
  rcases hf : a.find? id with _ | e
  · rfl
  have he := (find?_eq_some_iff.mp hf).1
  have hhas : s.contentStore.has e.contentHash = true := by
    rw [h.content, decide_eq_true_iff]
    exact (references_pos he).ne'
  obtain ⟨v, hv⟩ := has_iff.mp hhas
  obtain ⟨e', he', -, -, hhash, hdata⟩ := ha e he
  have hbytes : v = e.encryptedData := by
    rw [hs _ _ hv, ← hhash, hoffers.bytesOf_eq he', hdata]
  simp only [map_some, hv, hbytes]

/-- **Every reachable store is coherent, and gives each live entry back with the bytes it came
with**: the ledger holds every live entry with the payload it was offered with. -/
theorem coherent_run (localeCompare : JSString → JSString → ℤ) (epoch : JSString)
    (calls : List StoreCall) (hbytes : ContentAddressed (offered calls)) :
    (run localeCompare epoch calls).Coherent ∧
      (∀ ids, (run localeCompare epoch calls).getEntries ids = ids.filterMap (Ledger.run calls).find?) ∧
      ∀ id m, (run localeCompare epoch calls).entries.get? id = some m →
        ∃ e ∈ offered calls, e.id = id ∧ e.docId = m.docId ∧ e.contentHash = m.contentHash ∧
          (run localeCompare epoch calls).getEntries [id] = [⟨m, e.encryptedData⟩] := by
  have hrep := represents_run localeCompare epoch calls
  obtain ⟨hdrawn, hholds⟩ := payloads_run localeCompare epoch hbytes
  have hget := hrep.getEntries_eq hbytes hdrawn hholds
  refine ⟨hrep.coherent, hget, fun id m hm => ?_⟩
  rw [hrep.get?_entries, map_eq_some_iff] at hm
  obtain ⟨e, he, rfl⟩ := hm
  obtain ⟨hlive, hid⟩ := find?_eq_some_iff.mp he
  obtain ⟨e', he', hid', hdoc, hhash, hdata⟩ := hdrawn e hlive
  refine ⟨e', he', hid'.trans hid, hdoc, hhash, ?_⟩
  rw [hget, filterMap_cons_some he, filterMap_nil, hdata]

/-- Two documents sharing a payload, one of them purged, the other re-stamped. -/
def sharedPayloadCalls : List StoreCall :=
  let a : StoreEntryMetadata := .unwitnessed .docCreate "a" "d1" "h" [] 10
  let b : StoreEntryMetadata := .unwitnessed .docCreate "b" "d2" "h" [] 11
  [.putEntries [⟨a, [1, 2]⟩, ⟨b, [1, 2]⟩], .scanEntriesSince none 1 none, .purgeDocHistory "d1",
    .applyWitnessReceipts [{ b with receivedAt := some 12 }]]

theorem coherent_run_sharedPayload :
    ContentAddressed (offered sharedPayloadCalls) ∧
      (run (fun _ _ => 0) "epoch" sharedPayloadCalls).Coherent :=
  ⟨by decide, (coherent_run (fun _ _ => 0) "epoch" sharedPayloadCalls (by decide)).1⟩

end InMemoryStore

end MindooDB
