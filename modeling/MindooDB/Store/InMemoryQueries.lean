import MindooDB.Lib.Walk
import MindooDB.Store.InMemoryScan

/-!
# Store/InMemoryQueries — what the in-memory store answers

The reading methods of `InMemoryContentAddressedStore.ts` besides the scan.  `resolveDependencies` is
the same loop in every store, over the metadata by id (`resolveDependencies`).
-/

namespace MindooDB

open List

/-! ## Dependencies -/

/-- `stopAtEntryType` is `none` also for a text that names no type. -/
structure DependencyOptions where
  stopAtEntryType : Option StoreEntryType := none
  maxDepth : Option ℤ := none
  includeStart : Bool := true

section Dependencies

variable (entries : LinkedMap JSString StoreEntryMetadata) (startId : JSString)
  (options : DependencyOptions)

/-- The loop of `resolveDependencies`; `none` when the fuel ran out. -/
def resolveLoop : ℕ → List (JSString × ℕ) → LinkedSet JSString → List JSString →
    Option (List JSString)
  | _, [], _, result => some result
  | 0, _ :: _, _, _ => none
  | fuel + 1, (id, depth) :: queue, visited, result =>
    if id ∈ visited then resolveLoop fuel queue visited result
    else if options.maxDepth.any fun maxDepth => (depth : ℤ) > maxDepth then
      resolveLoop fuel queue (visited.add id) result
    else
      match entries.get? id with
      | none => resolveLoop fuel queue (visited.add id) result
      | some entry =>
        if options.stopAtEntryType = some entry.entryType ∧ id ≠ startId then
          resolveLoop fuel queue (visited.add id) (result ++ [id])
        else
          resolveLoop fuel
            (queue ++ (entry.dependencyIds.filter fun depId => depId ∉ visited.add id).map
              fun depId => (depId, depth + 1))
            (visited.add id)
            (if id ≠ startId ∨ options.includeStart then result ++ [id] else result)

/-- The dependencies of an id. -/
def dependencyIdsOf (id : JSString) : List JSString :=
  ((entries.get? id).map StoreEntryMetadata.dependencyIds).getD []

/-- More rounds than the loop can make. -/
def resolveRounds : ℕ := 1 + Walk.debt (dependencyIdsOf entries) entries.keys ∅

/-- `resolveDependencies`, oldest first. -/
def resolveDependencies : Option (List JSString) :=
  (resolveLoop entries startId options (resolveRounds entries) [(startId, 0)] ∅ []).map List.reverse

variable {entries startId options}

/-- The loop ends: what an entry leads to is queued once. -/
theorem isSome_resolveLoop {fuel : ℕ} {queue : List (JSString × ℕ)} {visited : LinkedSet JSString}
    {result : List JSString}
    (h : queue.length + Walk.debt (dependencyIdsOf entries) entries.keys visited ≤ fuel) :
    (resolveLoop entries startId options fuel queue visited result).isSome := by
  induction fuel generalizing queue visited result with
  | zero =>
    obtain rfl : queue = [] := length_eq_zero_iff.mp (by omega)
    rfl
  | succ fuel ih =>
    rcases queue with _ | ⟨⟨id, depth⟩, queue⟩
    · rfl
    rw [length_cons] at h
    have hdebt : Walk.debt (dependencyIdsOf entries) entries.keys (visited.add id)
        ≤ Walk.debt (dependencyIdsOf entries) entries.keys visited :=
      Walk.debt_add_le_debt entries.keys visited id
    rw [resolveLoop]
    split
    · exact ih (by omega)
    rename_i hnew
    split
    · exact ih (by omega)
    split
    · exact ih (by omega)
    rename_i entry hentry
    split
    · exact ih (by omega)
    · have hkey : dependencyIdsOf entries id ≠ [] → id ∈ entries.keys :=
        fun _ => LinkedMap.mem_keys_iff.mpr ⟨entry, hentry⟩
      have hpaid := Walk.debt_add_le hkey hnew
      have hdeps : dependencyIdsOf entries id = entry.dependencyIds := by
        rw [dependencyIdsOf, hentry, Option.map_some, Option.getD_some]
      have hpushed := length_filter_le (fun depId => decide (depId ∉ visited.add id))
        entry.dependencyIds
      rw [hdeps] at hpaid
      refine ih ?_
      rw [length_append, length_map]
      omega

/-- **`resolveDependencies` returns.** -/
theorem isSome_resolveDependencies (startId : JSString) (options : DependencyOptions) :
    (resolveDependencies entries startId options).isSome := by
  rw [resolveDependencies, Option.isSome_map]
  exact isSome_resolveLoop (by rw [resolveRounds, length_singleton])

end Dependencies

/-! ## The other queries -/

namespace InMemoryStore

variable (s : InMemoryStore)

def getEntryMetadata (id : JSString) : Option StoreEntryMetadata := s.entries.get? id

def hasEntries (ids : List JSString) : List JSString := ids.filter s.entries.has

def findNewEntries (knownIds : List JSString) : List StoreEntryMetadata :=
  (s.entries.toList.filter fun entry => entry.1 ∉ knownIds).map Prod.snd

def findNewEntriesForDoc (knownIds : List JSString) (docId : JSString) : List StoreEntryMetadata :=
  match s.docIndex.get? docId with
  | none => []
  | some docEntryIds =>
    (docEntryIds.toList.filter fun id => id ∉ knownIds).filterMap s.entries.get?

def findEntries (type : StoreEntryType) (creationDateFrom creationDateUntil : Option ℤ) :
    List StoreEntryMetadata :=
  s.entries.values.filter fun metadata =>
    metadata.entryType = type
      && !(creationDateFrom.any fun t => metadata.createdAt < t)
      && !(creationDateUntil.any fun t => metadata.createdAt ≥ t)

/-- **Every query is answered as by the ledger** of the calls, also the one that goes through the index
of the documents. -/
theorem answers_run (localeCompare : JSString → JSString → ℤ) (epoch : JSString)
    (calls : List StoreCall) :
    let s := run localeCompare epoch calls
    let live := (Ledger.run calls).live
    (∀ id, s.getEntryMetadata id = (live.find? (·.id = id)).map StoreEntry.toStoreEntryMetadata)
      ∧ (∀ ids, s.hasEntries ids = ids.filter fun id => live.any (·.id = id))
      ∧ (∀ knownIds, s.findNewEntries knownIds
        = (live.filter (·.id ∉ knownIds)).map StoreEntry.toStoreEntryMetadata)
      ∧ (∀ knownIds docId, s.findNewEntriesForDoc knownIds docId
        = (live.filter fun e => decide (e.docId = docId) && decide (e.id ∉ knownIds)).map
            StoreEntry.toStoreEntryMetadata)
      ∧ ∀ type start stop, s.findEntries type start stop
        = (live.filter fun e => e.entryType = type && !(start.any fun t => e.createdAt < t)
            && !(stop.any fun t => e.createdAt ≥ t)).map StoreEntry.toStoreEntryMetadata := by
  have h := represents_run localeCompare epoch calls
  refine ⟨h.get?_entries, fun ids => ?_, fun knownIds => ?_, fun knownIds docId => ?_,
    fun type start stop => ?_⟩
  · refine filter_congr fun id _ => ?_
    rw [h.has_entries, Ledger.find?, isSome_find?]
  · rw [findNewEntries, h.entries, filter_map, map_map]
    rfl
  · refine Eq.trans ?_ (h.filterMap_docIndex docId fun id => decide (id ∉ knownIds))
    rw [findNewEntriesForDoc]
    cases (run localeCompare epoch calls).docIndex.get? docId <;> rfl
  · rw [findEntries, h.values_entries, filter_map]
    rfl

end InMemoryStore

end MindooDB
