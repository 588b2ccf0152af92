import MindooDB.Lib.Walk
import MindooDB.Store.Entry

/-!
# Planner/MaterializationPlanner — which snapshot to load, which entries to replay

`core/appendonlystores/MaterializationPlanner.ts`.  The two depth-first loops are `Walk.walk`, with
the stack's top in front; Kahn's loop keeps the in-degree map and the queue of the source.  Both
run on fuel, and `Planner/Coverage` and `Planner/Topological` prove that it never runs out.
-/

namespace MindooDB

/-- `DOC_REPLAY_TYPES`. -/
def docReplayTypes : List StoreEntryType := [.docCreate, .docChange, .docDelete, .docUndelete]

def isReplayEntry (metadata : StoreEntryMetadata) : Bool := metadata.entryType ∈ docReplayTypes

/-- Entries by id. -/
abbrev EntryMap := LinkedMap JSString StoreEntryMetadata

/-- `new Map(entries.map((e) => [e.id, e]))`. -/
def entriesById (entries : List StoreEntryMetadata) : EntryMap :=
  LinkedMap.ofList (entries.map fun e => (e.id, e))

/-- The dependency ids of an entry, none when it is not in the map. -/
def dependenciesOf (byId : EntryMap) (id : JSString) : List JSString :=
  match byId.get? id with
  | none => []
  | some entry => entry.dependencyIds

/-- Room for one push per root and one per dependency. -/
def walkFuel (byId : EntryMap) (roots : List JSString) : ℕ :=
  roots.length + (byId.keys.map fun id => (dependenciesOf byId id).length).sum

/-- The ids some replay entry names as a dependency. -/
def referencedIds (byId : EntryMap) (replayEntries : List StoreEntryMetadata) :
    LinkedSet JSString :=
  replayEntries.foldl (fun referenced entry =>
    entry.dependencyIds.foldl
      (fun referenced depId => if byId.has depId then referenced.add depId else referenced)
      referenced) ∅

/-- The heads of the replay entries, and everything they reach. -/
def buildLatestStateReachability (replayEntries : List StoreEntryMetadata) :
    List JSString × LinkedSet JSString :=
  let byId := entriesById replayEntries
  let referenced := referencedIds byId replayEntries
  let latestHeads := (replayEntries.filter fun e => e.id ∉ referenced).map fun e => e.id
  let latestReachable := Walk.walk (fun _ => true) (fun id => (dependenciesOf byId id).filter byId.has)
    (walkFuel byId latestHeads) latestHeads.reverse ∅
  (latestHeads, latestReachable.getD ∅)

/-- Where the coverage of a snapshot starts: its head entries, or its dependencies when it has no
heads. -/
def snapshotRoots (snapshot : StoreEntryMetadata) : List JSString :=
  match snapshot.snapshotHeadEntryIds with
  | some (head :: heads) => head :: heads
  | _ => snapshot.dependencyIds

/-- The replay entries a snapshot covers. -/
def coveredBySnapshot (snapshot : Option StoreEntryMetadata) (replayById : EntryMap) :
    LinkedSet JSString :=
  match snapshot with
  | none => ∅
  | some snapshot =>
    let roots := snapshotRoots snapshot
    (Walk.walk replayById.has (dependenciesOf replayById) (walkFuel replayById roots) roots.reverse
      ∅).getD ∅

/-! ## Kahn's algorithm -/

/-- How many dependencies each id waits for, and who waits for it. -/
structure DependencyTables where
  indegree : LinkedMap JSString ℤ
  dependents : LinkedMap JSString (List JSString)

/-- One dependency of `id`: count it, unless it lies outside the set. -/
def countDependency (ids : LinkedSet JSString) (id : JSString) (tables : DependencyTables)
    (depId : JSString) : DependencyTables :=
  if depId ∈ ids then
    ⟨tables.indegree.set id (orFalsy (tables.indegree.get? id) 0 + 1),
      tables.dependents.set depId ((tables.dependents.get? depId).getD [] ++ [id])⟩
  else tables

def buildDependencyTables (ids : LinkedSet JSString) (replayById : EntryMap) : DependencyTables :=
  let empty : DependencyTables := ids.toList.foldl
    (fun tables id => ⟨tables.indegree.set id 0, tables.dependents.set id []⟩) ⟨∅, ∅⟩
  ids.toList.foldl
    (fun tables id => (dependenciesOf replayById id).foldl (countDependency ids id) tables) empty

/-- One dependent of an emitted entry: it waits for one entry less, and joins the queue when it
waits for none. -/
def release (s : LinkedMap JSString ℤ × List JSString) (dep : JSString) :
    LinkedMap JSString ℤ × List JSString :=
  let next := orFalsy (s.1.get? dep) 0 - 1
  (s.1.set dep next, if next = 0 then s.2 ++ [dep] else s.2)

/-- The loop of `topologicalByDependencies`; `none` when the fuel ran out. -/
def kahnLoop (dependents : LinkedMap JSString (List JSString)) :
    ℕ → LinkedMap JSString ℤ → List JSString → List JSString → Option (List JSString)
  | _, _, [], ordered => some ordered
  | 0, _, _ :: _, _ => none
  | fuel + 1, indegree, id :: queue, ordered =>
    let (indegree', queue') := ((dependents.get? id).getD []).foldl release (indegree, queue)
    kahnLoop dependents fuel indegree' (JSString.sort queue') (ordered ++ [id])

/-- Dependencies first; in a cycle, by id. -/
def topologicalByDependencies (ids : LinkedSet JSString) (replayById : EntryMap) : List JSString :=
  let tables := buildDependencyTables ids replayById
  let queue := ids.toList.filter fun id => orFalsy (tables.indegree.get? id) 0 = 0
  let ordered :=
    (kahnLoop tables.dependents ids.size tables.indegree (JSString.sort queue) []).getD []
  if ordered.length ≠ ids.size then JSString.sort ids.toList else ordered

/-! ## The plan -/

structure MaterializationPlanDiagnostics where
  headEntryIds : List JSString
  coveredLatestEntryCount : ℤ
  uncoveredLatestEntryCount : ℤ
  deriving DecidableEq

structure DocumentMaterializationPlan where
  docId : JSString
  snapshotEntryId : Option JSString
  entryIdsToApply : List JSString
  diagnostics : Option MaterializationPlanDiagnostics
  deriving DecidableEq

/-- How many of the latest-state entries a snapshot covers. -/
def coveredLatestCount (latestReachable : LinkedSet JSString) (replayById : EntryMap)
    (snapshot : StoreEntryMetadata) : ℤ :=
  latestReachable.toList.countP fun id => id ∈ coveredBySnapshot (some snapshot) replayById

/-- The loop body of the snapshot choice: the best snapshot so far with its score. -/
def considerSnapshot (score : StoreEntryMetadata → ℤ) (best : Option StoreEntryMetadata × ℤ)
    (snapshot : StoreEntryMetadata) : Option StoreEntryMetadata × ℤ :=
  let coveredLatest := score snapshot
  let best' :=
    if coveredLatest > best.2 ||
        (coveredLatest = best.2 && best.1.any fun b => snapshot.createdAt > b.createdAt) then
      (some snapshot, coveredLatest)
    else best
  if best'.1 = none then (some snapshot, coveredLatest) else best'

/-- `snapshots.reduce((a, b) => (b.createdAt > a.createdAt ? b : a))`. -/
def newestSnapshot : List StoreEntryMetadata → Option StoreEntryMetadata
  | [] => none
  | a :: rest => some (rest.foldl (fun a b => if b.createdAt > a.createdAt then b else a) a)

/-- **The materialization plan of one document.** -/
def computeDocumentMaterializationPlan (docId : JSString)
    (allEntriesForDoc : List StoreEntryMetadata) (includeDiagnostics : Bool) :
    DocumentMaterializationPlan :=
  let replayEntries := allEntriesForDoc.filter isReplayEntry
  let replayById := entriesById replayEntries
  let snapshots := allEntriesForDoc.filter fun e => e.entryType = .docSnapshot
  if replayEntries.length = 0 then
    { docId
      snapshotEntryId := (newestSnapshot snapshots).map fun s => s.id
      entryIdsToApply := []
      diagnostics := if includeDiagnostics then some ⟨[], 0, 0⟩ else none }
  else
    let (latestHeads, latestReachable) := buildLatestStateReachability replayEntries
    let (bestSnapshot, bestCoveredCount) :=
      snapshots.foldl (considerSnapshot (coveredLatestCount latestReachable replayById)) (none, -1)
    let covered := coveredBySnapshot bestSnapshot replayById
    let uncovered := LinkedSet.ofList (latestReachable.toList.filter fun id => id ∉ covered)
    { docId
      snapshotEntryId := bestSnapshot.map fun s => s.id
      entryIdsToApply := topologicalByDependencies uncovered replayById
      diagnostics :=
        if includeDiagnostics then
          some ⟨latestHeads, if bestCoveredCount < 0 then 0 else bestCoveredCount, uncovered.size⟩
        else none }

end MindooDB
