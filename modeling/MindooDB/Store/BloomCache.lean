import MindooDB.Lib.LinkedMap
import MindooDB.Lib.Run
import MindooDB.Store.Bloom

/-!
# Store/BloomCache — the cached filter of a browser's store

`putEntries`, `purgeDocHistory` and `getIdBloomSummary` of `IndexedDBContentAddressedStore.ts`, as
far as they touch the ids and the one record that caches their filter.  A transaction is one step.
`putEntries` and `purgeDocHistory` are one transaction each; `getIdBloomSummary` reads the record,
collects the ids and writes its filter in three, and what others do in between it does not see.

So a filter denies no stored id (`bloomMightContainId_of_run`) as long as no id is stored between the
collection and the writing; `stale_getIdBloomSummary` is a run where one is.
-/

namespace MindooDB

structure BloomCacheRecord where
  summary : Option StoreIdBloomSummary
  dirty : Bool
  deriving DecidableEq

/-- The ids with their documents, and the record that caches their filter. -/
structure BrowserDb where
  entries : LinkedMap JSString JSString := ∅
  bloomCache : Option BloomCacheRecord := none

namespace BrowserDb

/-- `cached && !cached.dirty && cached.summary`. -/
def cachedSummary (db : BrowserDb) : Option StoreIdBloomSummary :=
  db.bloomCache.bind fun cached => if cached.dirty then none else cached.summary

/-- An entry is stored unless it is there already; the second part are the ids that are new. -/
def insertEntry (acc : LinkedMap JSString JSString × List JSString) (entry : JSString × JSString) :
    LinkedMap JSString JSString × List JSString :=
  if acc.1.has entry.1 then acc else (acc.1.set entry.1 entry.2, acc.2 ++ [entry.1])

variable (math : BloomMath)

/-- The record after some ids were stored; an exception leaves it as it is. -/
def updateBloomCache (db : BrowserDb) (insertedIds : List JSString) : Option BloomCacheRecord :=
  match db.cachedSummary with
  | none => some ⟨none, true⟩
  | some summary =>
    match incrementalBloomUpdate math summary insertedIds with
    | none => db.bloomCache
    | some none => some ⟨none, true⟩
    | some (some updated) => some ⟨some updated, false⟩

/-- The transaction of `putEntries`, on the ids and documents of the entries. -/
def putEntries (db : BrowserDb) (entries : List (JSString × JSString)) : BrowserDb :=
  let (stored, insertedIds) := entries.foldl insertEntry (db.entries, [])
  if insertedIds.length > 0 then ⟨stored, db.updateBloomCache math insertedIds⟩ else db

/-- The ids of a document. -/
def idsOfDoc (db : BrowserDb) (docId : JSString) : List JSString :=
  (db.entries.toList.filter fun entry => entry.2 = docId).map Prod.fst

/-- The transaction of `purgeDocHistory`. -/
def purgeDocHistory (db : BrowserDb) (docId : JSString) : BrowserDb :=
  if (db.idsOfDoc docId).length = 0 then db
  else ⟨(db.idsOfDoc docId).foldl LinkedMap.delete db.entries, some ⟨none, true⟩⟩

end BrowserDb

/-! ## Calls -/

/-- Where a call of `getIdBloomSummary` stands. -/
inductive SummaryPhase where
  | reading
  | collecting
  | writing (ids : List JSString)
  | returned (summary : StoreIdBloomSummary)
  deriving DecidableEq

/-- A call, and the ids that were stored before it began and have not been purged since. -/
structure SummaryCall where
  phase : SummaryPhase
  owed : List JSString
  deriving DecidableEq

/-- Some ids are purged; a call that has returned does not see it. -/
def SummaryCall.purge (call : SummaryCall) (ids : List JSString) : SummaryCall :=
  match call.phase with
  | .returned _ => call
  | _ => { call with owed := call.owed.filter fun id => id ∉ ids }

structure BloomState where
  db : BrowserDb := {}
  calls : ℕ → Option SummaryCall := fun _ => none

/-- A transaction commits, or a call begins or finds its connection lost. -/
inductive BloomEvent where
  | putEntries (entries : List (JSString × JSString))
  | purgeDocHistory (docId : JSString)
  | getIdBloomSummary (call : ℕ)
  | next (call : ℕ)
  | reconnect (call : ℕ)

variable (math : BloomMath)

/-- The next transaction of a call: what it leaves of the database, and where it takes the call. -/
def SummaryPhase.next (db : BrowserDb) : SummaryPhase → BrowserDb × SummaryPhase
  | .reading => (db, db.cachedSummary.elim .collecting .returned)
  | .collecting => (db, .writing db.entries.keys)
  | .writing ids =>
    ({ db with bloomCache := some ⟨some (createIdBloomSummary math ids), false⟩ },
      .returned (createIdBloomSummary math ids))
  | .returned summary => (db, .returned summary)

/-- `runWithReconnect` starts over. -/
def SummaryPhase.reconnect : SummaryPhase → SummaryPhase
  | .returned summary => .returned summary
  | _ => .reading

def bloomStep (s : BloomState) : BloomEvent → BloomState
  | .putEntries entries => { s with db := s.db.putEntries math entries }
  | .purgeDocHistory docId =>
    { db := s.db.purgeDocHistory docId
      calls := fun call => (s.calls call).map fun c => c.purge (s.db.idsOfDoc docId) }
  | .getIdBloomSummary call =>
    match s.calls call with
    | some _ => s
    | none =>
      { s with calls := Function.update s.calls call (some ⟨.reading, s.db.entries.keys⟩) }
  | .next call =>
    match s.calls call with
    | none => s
    | some c =>
      { db := (c.phase.next math s.db).1
        calls := Function.update s.calls call (some { c with phase := (c.phase.next math s.db).2 }) }
  | .reconnect call =>
    match s.calls call with
    | none => s
    | some c =>
      { s with calls := Function.update s.calls call (some { c with phase := c.phase.reconnect }) }

/-- **What a call writes back is not stale**: every stored id is one that it collected. -/
def WritesAll (s : BloomState) : BloomEvent → Prop
  | .next call => ∀ c ∈ s.calls call, ∀ ids, c.phase = .writing ids → ∀ id ∈ s.db.entries.keys, id ∈ ids
  | _ => True

/-! ## Transactions -/

namespace BrowserDb

section Insert

variable (acc : LinkedMap JSString JSString × List JSString) (entries : List (JSString × JSString))

/-- What is stored afterwards was stored before or is new. -/
theorem mem_keys_foldl_insertEntry (id : JSString) :
    (id ∈ acc.1.keys → id ∈ (entries.foldl insertEntry acc).1.keys)
      ∧ (id ∈ acc.2 → id ∈ (entries.foldl insertEntry acc).2)
      ∧ (id ∈ (entries.foldl insertEntry acc).1.keys →
        id ∈ acc.1.keys ∨ id ∈ (entries.foldl insertEntry acc).2) := by
  induction entries generalizing acc with
  | nil => exact ⟨fun h => h, fun h => h, .inl⟩
  | cons entry entries ih =>
    obtain ⟨hkeep, hnew, hback⟩ := ih (insertEntry acc entry)
    rw [List.foldl_cons]
    rcases hhas : acc.1.has entry.1 with _ | _
    · have hinsert : insertEntry acc entry = (acc.1.set entry.1 entry.2, acc.2 ++ [entry.1]) := by
        rw [insertEntry, if_neg (by rw [hhas]; exact Bool.false_ne_true)]
      rw [hinsert] at hkeep hnew hback ⊢
      refine ⟨fun h => hkeep ((LinkedMap.mem_keys_set _ _ _ _).mpr (.inr h)),
        fun h => hnew (List.mem_append_left _ h), fun h => ?_⟩
      rcases hback h with hold | hnew'
      · rcases (LinkedMap.mem_keys_set _ _ _ _).mp hold with rfl | hold
        · exact .inr (hnew (List.mem_append_right _ (List.mem_singleton_self _)))
        · exact .inl hold
      · exact .inr hnew'
    · have hinsert : insertEntry acc entry = acc := by rw [insertEntry, if_pos hhas]
      rw [hinsert] at hkeep hnew hback ⊢
      exact ⟨hkeep, hnew, hback⟩

end Insert

/-- The cached filter is sound and holds no more ids than it should. -/
def CachesWell (db : BrowserDb) : Prop :=
  ∀ summary, db.cachedSummary = some summary →
    summary.Sound ∧ summary.totalIds ≤ rebuildBound math summary

/-- The cached filter contains every id. -/
def CachesAll (db : BrowserDb) : Prop :=
  ∀ summary, db.cachedSummary = some summary → ∀ id ∈ db.entries.keys, Contains summary id

variable {math} {db : BrowserDb}

/-- **Storing entries** keeps the ids, and the cached filter is gone or takes the new ones in. -/
theorem putEntries_spec (entries : List (JSString × JSString)) :
    (∀ id ∈ db.entries.keys, id ∈ (db.putEntries math entries).entries.keys)
      ∧ ∀ summary', (db.putEntries math entries).cachedSummary = some summary' →
        ∃ summary newIds, db.cachedSummary = some summary
          ∧ (∀ id ∈ (db.putEntries math entries).entries.keys, id ∈ db.entries.keys ∨ id ∈ newIds)
          ∧ (incrementalBloomUpdate math summary newIds = some (some summary')
            ∨ incrementalBloomUpdate math summary newIds = none ∧ summary' = summary) := by
  have hmem := mem_keys_foldl_insertEntry (db.entries, []) entries
  rw [putEntries]
  generalize entries.foldl insertEntry (db.entries, []) = result at hmem ⊢
  obtain ⟨stored, insertedIds⟩ := result
  simp only
  split
  · refine ⟨fun id => (hmem id).1, fun summary' h => ?_⟩
    rcases hcached : db.cachedSummary with _ | summary
    · rw [cachedSummary, updateBloomCache, hcached] at h
      exact nomatch h
    · refine ⟨summary, insertedIds, rfl, fun id => (hmem id).2.2, ?_⟩
      rw [cachedSummary, updateBloomCache, hcached] at h
      simp only at h
      rcases hupdate : incrementalBloomUpdate math summary insertedIds with _ | updated
      · rw [hupdate] at h
        exact .inr ⟨rfl, Option.some.inj (h.symm.trans hcached)⟩
      · rw [hupdate] at h
        rcases updated with _ | updated
        · exact nomatch h
        · exact .inl (h ▸ rfl)
  · exact ⟨fun id h => h, fun summary' h => ⟨summary', [], h, fun id => .inl, .inl rfl⟩⟩

theorem CachesWell.putEntries (h : db.CachesWell math) (entries : List (JSString × JSString)) :
    (db.putEntries math entries).CachesWell math := by
  intro summary' hcached
  obtain ⟨summary, newIds, hold, -, hupdate⟩ := (putEntries_spec entries).2 summary' hcached
  obtain ⟨hsound, hbound⟩ := h summary hold
  rcases hupdate with hupdate | ⟨-, rfl⟩
  · exact ⟨hsound.incrementalBloomUpdate hupdate, totalIds_incrementalBloomUpdate hbound hupdate⟩
  · exact ⟨hsound, hbound⟩

/-- A sound filter never throws. -/
theorem incrementalBloomUpdate_ne_none {summary : StoreIdBloomSummary} (hsound : summary.Sound)
    (newIds : List JSString) : incrementalBloomUpdate math summary newIds ≠ none := by
  obtain ⟨bitset, hbitset, -⟩ := hsound.bytes
  rw [incrementalBloomUpdate, hbitset]
  split_ifs <;> simp

theorem CachesAll.putEntries (hwell : db.CachesWell math) (h : db.CachesAll)
    (entries : List (JSString × JSString)) : (db.putEntries math entries).CachesAll := by
  intro summary' hcached id hid
  obtain ⟨summary, newIds, hold, hmem, hupdate⟩ := (putEntries_spec entries).2 summary' hcached
  have hsound := (hwell summary hold).1
  rcases hupdate with hupdate | ⟨hnone, -⟩
  · exact Contains.incrementalBloomUpdate hsound hupdate ((hmem id hid).imp_left (h summary hold id))
  · exact absurd hnone (incrementalBloomUpdate_ne_none hsound newIds)

theorem mem_keys_foldl_delete {ids : List JSString} {m : LinkedMap JSString JSString} {id : JSString} :
    id ∈ (ids.foldl LinkedMap.delete m).keys ↔ id ∉ ids ∧ id ∈ m.keys := by
  induction ids generalizing m with
  | nil => simp
  | cons id' ids ih => rw [List.foldl_cons, ih, LinkedMap.mem_keys_delete, List.mem_cons, not_or, and_assoc,
      and_left_comm]

theorem mem_keys_purgeDocHistory {docId id : JSString} :
    id ∈ (db.purgeDocHistory docId).entries.keys ↔ id ∉ db.idsOfDoc docId ∧ id ∈ db.entries.keys := by
  rw [purgeDocHistory]
  split
  · rename_i hnone
    rw [List.eq_nil_of_length_eq_zero hnone]
    simp
  · exact mem_keys_foldl_delete

/-- A purge leaves the cached filter as it is only when there is nothing to purge. -/
theorem cachedSummary_purgeDocHistory {docId : JSString} {summary : StoreIdBloomSummary}
    (h : (db.purgeDocHistory docId).cachedSummary = some summary) : db.cachedSummary = some summary := by
  rw [purgeDocHistory] at h
  split at h
  · exact h
  · exact nomatch h

end BrowserDb

/-! ## Runs -/

/-- What a call is sure to return: the ids that it owes are stored, collected or contained. -/
def SummaryCall.Promises (keys : List JSString) (call : SummaryCall) : Prop :=
  match call.phase with
  | .reading | .collecting => ∀ id ∈ call.owed, id ∈ keys
  | .writing ids => ∀ id ∈ call.owed, id ∈ keys ∧ id ∈ ids
  | .returned summary => ∀ id ∈ call.owed, Contains summary id

namespace SummaryCall

variable {math} {keys keys' : List JSString} {call : SummaryCall}

theorem Promises.mono (hkeys : ∀ id ∈ keys, id ∈ keys') (h : call.Promises keys) :
    call.Promises keys' := by
  obtain ⟨phase, owed⟩ := call
  cases phase with
  | reading | collecting => exact fun id hid => hkeys id (h id hid)
  | writing ids => exact fun id hid => ⟨hkeys id (h id hid).1, (h id hid).2⟩
  | returned summary => exact h

theorem Promises.purge {ids : List JSString} (hkeys : ∀ id ∈ keys, id ∉ ids → id ∈ keys')
    (h : call.Promises keys) : (call.purge ids).Promises keys' := by
  obtain ⟨phase, owed⟩ := call
  have howed : ∀ id ∈ owed.filter (fun id => id ∉ ids), id ∈ owed ∧ id ∉ ids := fun id hid =>
    (List.mem_filter.mp hid).imp_right of_decide_eq_true
  cases phase with
  | reading | collecting => exact fun id hid => hkeys id (h id (howed id hid).1) (howed id hid).2
  | writing collected =>
    exact fun id hid => ⟨hkeys id (h id (howed id hid).1).1 (howed id hid).2, (h id (howed id hid).1).2⟩
  | returned summary => exact h

theorem Promises.next {db : BrowserDb} (hall : db.CachesAll) (h : call.Promises db.entries.keys) :
    { call with phase := (call.phase.next math db).2 : SummaryCall }.Promises db.entries.keys := by
  obtain ⟨phase, owed⟩ := call
  cases phase with
  | reading =>
    rcases hcached : db.cachedSummary with _ | summary
    · rw [SummaryPhase.next, hcached]
      exact h
    · rw [SummaryPhase.next, hcached]
      exact fun id hid => hall summary hcached id (h id hid)
  | collecting => exact fun id hid => ⟨h id hid, h id hid⟩
  | writing ids => exact fun id hid => contains_createIdBloomSummary (h id hid).2
  | returned summary => exact h

theorem Promises.reconnect (h : call.Promises keys) :
    { call with phase := call.phase.reconnect : SummaryCall }.Promises keys := by
  obtain ⟨phase, owed⟩ := call
  cases phase with
  | reading | collecting => exact h
  | writing ids => exact fun id hid => (h id hid).1
  | returned summary => exact h

end SummaryCall

/-- **What holds between two steps.** -/
structure BloomState.Invariant (s : BloomState) : Prop where
  well : s.db.CachesWell math
  all : s.db.CachesAll
  calls : ∀ call, ∀ c ∈ s.calls call, c.Promises s.db.entries.keys

section Steps

variable {math} {s : BloomState}

/-- A call that moves on keeps the promises of all when it keeps its own. -/
theorem promises_update (h : ∀ call, ∀ c ∈ s.calls call, c.Promises s.db.entries.keys) {call : ℕ}
    {c : SummaryCall} (hc : c.Promises s.db.entries.keys) :
    ∀ call', ∀ c' ∈ Function.update s.calls call (some c) call', c'.Promises s.db.entries.keys := by
  intro call' c' hc'
  rcases eq_or_ne call' call with rfl | hne
  · rw [Function.update_self] at hc'
    exact Option.some.inj hc' ▸ hc
  · rw [Function.update_of_ne hne] at hc'
    exact h call' c' hc'

theorem SummaryPhase.next_db_entries (phase : SummaryPhase) (db : BrowserDb) :
    (phase.next math db).1.entries = db.entries := by
  cases phase <;> rfl

theorem BrowserDb.CachesWell.next (hmath : math.Inverse) {db : BrowserDb} (h : db.CachesWell math)
    (phase : SummaryPhase) : (phase.next math db).1.CachesWell math := by
  cases phase with
  | writing ids =>
    rintro summary hcached
    obtain rfl := Option.some.inj hcached
    exact ⟨sound_createIdBloomSummary, totalIds_createIdBloomSummary hmath⟩
  | _ => exact h

theorem BrowserDb.CachesAll.next {db : BrowserDb} (h : db.CachesAll) {phase : SummaryPhase}
    (hfresh : ∀ ids, phase = .writing ids → ∀ id ∈ db.entries.keys, id ∈ ids) :
    (phase.next math db).1.CachesAll := by
  cases phase with
  | writing ids =>
    rintro summary hcached id hid
    obtain rfl := Option.some.inj hcached
    exact contains_createIdBloomSummary (hfresh ids rfl id hid)
  | _ => exact h

/-- The cached filter is sound and not overfull, whatever is written back. -/
theorem cachesWell_step (hmath : math.Inverse) (h : s.db.CachesWell math) (event : BloomEvent) :
    (bloomStep math s event).db.CachesWell math := by
  cases event with
  | putEntries entries => exact h.putEntries entries
  | purgeDocHistory docId =>
    exact fun summary hcached => h summary (BrowserDb.cachedSummary_purgeDocHistory hcached)
  | getIdBloomSummary call | reconnect call =>
    rw [bloomStep]
    split <;> exact h
  | next call =>
    rw [bloomStep]
    split
    · exact h
    · exact h.next hmath _

theorem BloomState.Invariant.step (hmath : math.Inverse) (hs : s.Invariant math) {event : BloomEvent}
    (hwrites : WritesAll s event) : (bloomStep math s event).Invariant math := by
  have hwell := cachesWell_step hmath hs.well event
  cases event with
  | putEntries entries =>
    exact ⟨hwell, hs.all.putEntries hs.well entries,
      fun call c hc => (hs.calls call c hc).mono (BrowserDb.putEntries_spec entries).1⟩
  | purgeDocHistory docId =>
    refine ⟨hwell, fun summary h id hid => hs.all summary (BrowserDb.cachedSummary_purgeDocHistory h) id
        (BrowserDb.mem_keys_purgeDocHistory.mp hid).2, fun call c hc => ?_⟩
    obtain ⟨c', hc', rfl⟩ := Option.map_eq_some_iff.mp hc
    exact (hs.calls call c' hc').purge
      fun id hid hnot => BrowserDb.mem_keys_purgeDocHistory.mpr ⟨hnot, hid⟩
  | getIdBloomSummary call =>
    rw [bloomStep]
    split
    · exact hs
    · exact ⟨hs.well, hs.all, promises_update hs.calls fun id hid => hid⟩
  | next call =>
    rw [bloomStep]
    rcases hcall : s.calls call with _ | c
    · exact hs
    · refine ⟨hs.well.next hmath c.phase, hs.all.next (hwrites c hcall), ?_⟩
      rw [SummaryPhase.next_db_entries]
      exact promises_update hs.calls ((hs.calls call c hcall).next hs.all)
  | reconnect call =>
    rw [bloomStep]
    rcases hcall : s.calls call with _ | c
    · exact hs
    · exact ⟨hs.well, hs.all, promises_update hs.calls (hs.calls call c hcall).reconnect⟩

end Steps

/-- **The filter denies no stored id** in every run whose filters are written back with all ids that
are stored then; it holds no more ids than it should in every run. -/
theorem bloomMightContainId_of_run (math : BloomMath) (hmath : math.Inverse)
    (events : List BloomEvent) :
    (Run.AllSteps (bloomStep math) WritesAll {} events → ∀ call summary owed,
        (Run.run (bloomStep math) {} events).calls call = some ⟨.returned summary, owed⟩ →
          ∀ id ∈ owed, bloomMightContainId summary id = some true)
      ∧ ∀ summary, (Run.run (bloomStep math) {} events).db.cachedSummary = some summary →
        summary.totalIds ≤ rebuildBound math summary := by
  constructor
  · intro hwrites call summary owed hcall
    have hs : (Run.run (bloomStep math) {} events).Invariant math :=
      Run.induction ⟨nofun, nofun, nofun⟩ (fun _ _ hs hstep => hs.step hmath hstep) hwrites
    exact hs.calls call _ hcall
  · have hwell : (Run.run (bloomStep math) {} events).db.CachesWell math := by
      induction events using List.reverseRecOn with
      | nil => exact nofun
      | append_singleton events event ih =>
        rw [Run.run_append]
        exact cachesWell_step hmath ih event
    exact fun summary hcached => (hwell summary hcached).2

/-! ## Two runs -/

/-- The roundings with 9.58506 bits for an id and 0.693147 for `ln2`. -/
def roundedMath : BloomMath where
  ceilBits n := (n * 958506 + 99999) / 100000
  roundHashes bits n := (2 * bits * 693147 + n * 1000000) / (2 * n * 1000000)
  floorItems bits := bits * 100000 / 958506

theorem inverse_roundedMath : roundedMath.Inverse := by
  intro n
  simp only [roundedMath]
  omega

/-- A call that collects after a put, and writes after a purge. -/
def purgedMeanwhile : List BloomEvent :=
  [.putEntries [("a", "d")], .getIdBloomSummary 0, .next 0, .putEntries [("b", "e")], .next 0,
    .purgeDocHistory "e", .next 0]

theorem bloomMightContainId_of_run_purgedMeanwhile :
    (Run.run (bloomStep roundedMath) {} purgedMeanwhile).db.cachedSummary
      = some (createIdBloomSummary roundedMath ["a", "b"])
    ∧ ∀ call summary owed,
      (Run.run (bloomStep roundedMath) {} purgedMeanwhile).calls call
          = some ⟨.returned summary, owed⟩ →
        ∀ id ∈ owed, bloomMightContainId summary id = some true :=
  ⟨rfl, (bloomMightContainId_of_run roundedMath inverse_roundedMath purgedMeanwhile).1
    ⟨trivial, trivial, by rintro c ⟨⟩ ids ⟨⟩, trivial, by rintro c ⟨⟩ ids ⟨⟩, trivial,
      by rintro c ⟨⟩ ids ⟨⟩; decide, trivial⟩⟩

/-- **A filter that is written back late** denies what was stored meanwhile, to every later call. -/
theorem stale_getIdBloomSummary :
    (Run.run (bloomStep roundedMath) {}
        [.getIdBloomSummary 0, .next 0, .next 0, .putEntries [("a", "d")], .next 0,
          .getIdBloomSummary 1, .next 1]).calls 1
      = some ⟨.returned (createIdBloomSummary roundedMath []), ["a"]⟩
    ∧ bloomMightContainId (createIdBloomSummary roundedMath []) "a" = some false :=
  ⟨rfl, by decide +kernel⟩

end MindooDB
