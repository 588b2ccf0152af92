import MindooDB.Store.Entry

/-!
# Store/Ledger — what a content-addressed store is for

A store is a list of live entries, each with its payload and its place in the receipt order.  Ids
and order numbers are distinct and the numbers lie below the next one to hand out; that is what the
`Ledger` fields say, and each operation keeps it by construction.  No index, no reference count, no
cache: a store that keeps those has to agree with this one.
-/

namespace MindooDB

open List

/-- **The live entries of a store**, in the order they were first stored. -/
structure Ledger where
  live : List StoreEntry
  next : ℤ
  /-- No two live entries share an id or an order number. -/
  distinct : live.Pairwise fun e e' => e.id ≠ e'.id ∧ e.order ≠ e'.order
  /-- Every live entry was numbered, with a number already handed out. -/
  numbered : ∀ e ∈ live, ∃ r, e.receiptOrder = some r ∧ 1 ≤ r ∧ r < next
  next_pos : 1 ≤ next

namespace Ledger

/-- The new store. -/
def initial : Ledger := ⟨[], 1, List.Pairwise.nil, by simp, le_rfl⟩

variable (a : Ledger)

/-- The live entry of an id. -/
def find? (id : JSString) : Option StoreEntry := a.live.find? fun e => e.id = id

/-- How many live entries carry a content hash. -/
def references (h : JSString) : ℕ := a.live.countP fun e => e.contentHash = h

/-- The live ids of a document, oldest first. -/
def idsOf (docId : JSString) : List JSString :=
  (a.live.filter fun e => e.docId = docId).map fun e => e.id

variable {e entry : StoreEntry} {receipt : StoreEntryMetadata}

theorem order_lt (he : e ∈ a.live) : e.order < a.next := by
  obtain ⟨r, hr, -, hlt⟩ := a.numbered e he
  simpa [StoreEntryMetadata.order, hr] using hlt

variable {a}

theorem find?_eq_some_iff {id : JSString} :
    a.find? id = some e ↔ e ∈ a.live ∧ e.id = id := by
  refine ⟨fun h => ⟨mem_of_find?_eq_some h, by simpa using find?_some h⟩, ?_⟩
  rintro ⟨hmem, rfl⟩
  obtain ⟨l₁, l₂, hl⟩ := append_of_mem hmem
  have hd := a.distinct
  rw [hl, pairwise_append] at hd
  rw [find?, hl, find?_append, find?_eq_none.mpr fun x hx => by
    simpa using (hd.2.2 x hx e (by simp)).1]
  simp

theorem find?_eq_none_iff {id : JSString} : a.find? id = none ↔ ∀ e ∈ a.live, e.id ≠ id := by
  simp [find?]

/-- A live entry is the only one of its id. -/
theorem eq_of_id_eq {e' : StoreEntry} (he : e ∈ a.live) (he' : e' ∈ a.live) (h : e.id = e'.id) :
    e = e' :=
  Option.some.inj ((find?_eq_some_iff.mpr ⟨he, h⟩).symm.trans (find?_eq_some_iff.mpr ⟨he', rfl⟩))

/-- …and of its order number. -/
theorem eq_of_order_eq {e' : StoreEntry} (he : e ∈ a.live) (he' : e' ∈ a.live)
    (h : e.order = e'.order) : e = e' :=
  inj_on_of_nodup_map (pairwise_map.mpr (a.distinct.imp And.right)) he he' h

/-! ## The operations -/

/-- The entry as it is stored: numbered afresh. -/
def stamp (entry : StoreEntry) (n : ℤ) : StoreEntry :=
  ⟨entry.toStoreEntryMetadata.withReceiptOrder n, entry.encryptedData⟩

@[simp] theorem id_stamp (entry : StoreEntry) (n : ℤ) : (stamp entry n).id = entry.id := rfl

@[simp] theorem docId_stamp (entry : StoreEntry) (n : ℤ) : (stamp entry n).docId = entry.docId := rfl

@[simp] theorem contentHash_stamp (entry : StoreEntry) (n : ℤ) :
    (stamp entry n).contentHash = entry.contentHash := rfl

variable (a)

/-- Store an entry, unless its id is taken. -/
def put (entry : StoreEntry) : Ledger :=
  if h : a.find? entry.id = none then
    { live := a.live ++ [stamp entry a.next]
      next := a.next + 1
      distinct := by
        refine pairwise_append.mpr ⟨a.distinct, pairwise_singleton _ _, fun e he e' he' => ?_⟩
        obtain rfl := mem_singleton.mp he'
        exact ⟨find?_eq_none_iff.mp h e he, (a.order_lt he).ne⟩
      numbered := by
        intro e he
        rcases mem_append.mp he with he | he
        · obtain ⟨r, hr, h1, hlt⟩ := a.numbered e he
          exact ⟨r, hr, h1, by omega⟩
        · obtain rfl := mem_singleton.mp he
          exact ⟨a.next, rfl, a.next_pos, by omega⟩
      next_pos := by have := a.next_pos; omega }
  else a

/-- The entry of `receipt.id` with the receipt attached and a fresh number; any other unchanged. -/
def rewitness (receipt : StoreEntryMetadata) (n : ℤ) (e : StoreEntry) : StoreEntry :=
  if e.id = receipt.id then ⟨e.toStoreEntryMetadata.withWitness receipt n, e.encryptedData⟩ else e

@[simp] theorem id_rewitness (receipt : StoreEntryMetadata) (n : ℤ) (e : StoreEntry) :
    (rewitness receipt n e).id = e.id := by unfold rewitness; split <;> rfl

@[simp] theorem docId_rewitness (receipt : StoreEntryMetadata) (n : ℤ) (e : StoreEntry) :
    (rewitness receipt n e).docId = e.docId := by unfold rewitness; split <;> rfl

@[simp] theorem contentHash_rewitness (receipt : StoreEntryMetadata) (n : ℤ) (e : StoreEntry) :
    (rewitness receipt n e).contentHash = e.contentHash := by unfold rewitness; split <;> rfl

@[simp] theorem encryptedData_rewitness (receipt : StoreEntryMetadata) (n : ℤ) (e : StoreEntry) :
    (rewitness receipt n e).encryptedData = e.encryptedData := by unfold rewitness; split <;> rfl

theorem order_rewitness (receipt : StoreEntryMetadata) (n : ℤ) (e : StoreEntry) :
    (rewitness receipt n e).order = if e.id = receipt.id then n else e.order := by
  unfold rewitness; split <;> rfl

/-- Whether a receipt changes the entry it names. -/
def news (receipt : StoreEntryMetadata) : Bool :=
  receipt.receivedAt ≠ none &&
    (a.find? receipt.id).any fun e => !e.toStoreEntryMetadata.sameWitness receipt

/-- Attach a witness receipt, when it brings news. -/
def witness (receipt : StoreEntryMetadata) : Ledger :=
  if a.news receipt then
    { live := a.live.map (rewitness receipt a.next)
      next := a.next + 1
      distinct := by
        refine pairwise_map.mpr (a.distinct.imp_of_mem fun {e e'} he he' h => ?_)
        refine ⟨by simpa using h.1, ?_⟩
        have hlt := a.order_lt he
        have hlt' := a.order_lt he'
        have hids := h.1
        have hords := h.2
        rw [order_rewitness, order_rewitness]
        split <;> split <;> grind
      numbered := by
        intro e he
        obtain ⟨e, he', rfl⟩ := mem_map.mp he
        obtain ⟨r, hr, h1, hlt⟩ := a.numbered e he'
        unfold rewitness
        split
        · exact ⟨a.next, rfl, a.next_pos, by omega⟩
        · exact ⟨r, hr, h1, by omega⟩
      next_pos := by have := a.next_pos; omega }
  else a

/-- Keep the entries passing a test. -/
def restrict (p : StoreEntry → Bool) : Ledger where
  live := a.live.filter p
  next := a.next
  distinct := a.distinct.filter _
  numbered := fun e he => a.numbered e (mem_of_mem_filter he)
  next_pos := a.next_pos

/-- Forget one entry. -/
def drop (id : JSString) : Ledger := a.restrict fun e => e.id ≠ id

/-- Forget every entry of a document. -/
def purge (docId : JSString) : Ledger := a.restrict fun e => e.docId ≠ docId

variable {a}

theorem restrict_congr {p q : StoreEntry → Bool} (h : ∀ e ∈ a.live, p e = q e) :
    a.restrict p = a.restrict q := by
  simp only [restrict, filter_congr h]

theorem restrict_restrict (p q : StoreEntry → Bool) :
    (a.restrict p).restrict q = a.restrict fun e => q e && p e := by
  simp only [restrict, filter_filter]

theorem restrict_true : a.restrict (fun _ => true) = a := by
  simp only [restrict, filter_true]

/-- Dropping one live entry is taking it out of the list. -/
theorem live_perm_drop {e : StoreEntry} (he : e ∈ a.live) :
    a.live.Perm (e :: (a.drop e.id).live) := by
  have hpart := (filter_append_perm (fun e' : StoreEntry => decide (e'.id = e.id)) a.live).symm
  have hone : a.live.filter (fun e' => decide (e'.id = e.id)) = [e] := by
    obtain ⟨l₁, l₂, hl⟩ := append_of_mem he
    have hd := a.distinct
    rw [hl, pairwise_append, pairwise_cons] at hd
    rw [hl, filter_append, filter_cons_of_pos (by simp),
      filter_eq_nil_iff.mpr fun x hx => by simpa using (hd.2.2 x hx e (by simp)).1,
      filter_eq_nil_iff.mpr fun x hx => by simpa using (hd.2.1.1 x hx).1.symm, nil_append]
  rw [hone] at hpart
  simpa [drop, restrict] using hpart

/-- **One reference fewer**, for the hash of the entry dropped. -/
theorem references_drop (he : e ∈ a.live) (h : JSString) :
    a.references h = (a.drop e.id).references h + if e.contentHash = h then 1 else 0 := by
  rw [references, (live_perm_drop he).countP_eq, countP_cons]
  simp [references]

theorem references_pos (he : e ∈ a.live) : 0 < a.references e.contentHash :=
  countP_pos_iff.mpr ⟨e, he, by simp⟩

theorem mem_idsOf {docId id : JSString} :
    id ∈ a.idsOf docId ↔ ∃ e, a.find? id = some e ∧ e.docId = docId := by
  simp only [idsOf, mem_map, mem_filter, decide_eq_true_eq, find?_eq_some_iff]
  exact ⟨fun ⟨e, ⟨he, hd⟩, hi⟩ => ⟨e, ⟨he, hi⟩, hd⟩, fun ⟨e, ⟨he, hi⟩, hd⟩ => ⟨e, ⟨he, hd⟩, hi⟩⟩

/-! ## What the operations leave behind -/

theorem put_of_find?_eq_some (h : a.find? entry.id = some e) :
    a.put entry = a := by
  rw [put, dif_neg (by simp [h])]

section

variable (h : a.find? entry.id = none)

include h

theorem live_put :
    (a.put entry).live = a.live ++ [stamp entry a.next] := by rw [put, dif_pos h]

theorem next_put :
    (a.put entry).next = a.next + 1 := by rw [put, dif_pos h]

theorem references_put (hash : JSString) :
    (a.put entry).references hash
      = a.references hash + if entry.contentHash = hash then 1 else 0 := by
  rw [references, live_put h, countP_append, references]
  by_cases hh : entry.contentHash = hash <;> simp [hh]

theorem idsOf_put (docId : JSString) :
    (a.put entry).idsOf docId
      = a.idsOf docId ++ if entry.docId = docId then [entry.id] else [] := by
  rw [idsOf, live_put h, filter_append, map_append, idsOf]
  by_cases hd : entry.docId = docId <;> simp [hd]

end

theorem witness_of_not_news (h : a.news receipt = false) :
    a.witness receipt = a := by rw [witness, if_neg (by simp [h])]

theorem live_witness (h : a.news receipt = true) :
    (a.witness receipt).live = a.live.map (rewitness receipt a.next) := by rw [witness, if_pos h]

theorem next_witness (h : a.news receipt = true) :
    (a.witness receipt).next = a.next + 1 := by rw [witness, if_pos h]

theorem references_witness (receipt : StoreEntryMetadata) (hash : JSString) :
    (a.witness receipt).references hash = a.references hash := by
  by_cases h : a.news receipt = true
  · simp [references, live_witness h, countP_map, Function.comp_def]
  · rw [witness_of_not_news (by simpa using h)]

theorem idsOf_witness (receipt : StoreEntryMetadata) (docId : JSString) :
    (a.witness receipt).idsOf docId = a.idsOf docId := by
  by_cases h : a.news receipt = true
  · simp [idsOf, live_witness h, filter_map, Function.comp_def]
  · rw [witness_of_not_news (by simpa using h)]

theorem idsOf_purge (docId d : JSString) :
    (a.purge docId).idsOf d = if d = docId then [] else a.idsOf d := by
  simp only [idsOf, purge, restrict, filter_filter]
  split
  · rename_i h
    simp [h]
  · rename_i h
    congr 1
    refine filter_congr fun e _ => ?_
    by_cases hd : e.docId = d <;> simp [hd, h]

end Ledger

end MindooDB
