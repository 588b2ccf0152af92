import MindooDB.Lib.CompareSort
import MindooDB.Planner.MaterializationPlanner

/-!
# Materialization/Lifecycle — deletion and grounding, from the metadata

`core/DocumentDagAnalysis.ts`: whether the lifecycle entries of a document leave it deleted, and
which entries of a slice of its history have all their ancestry in it.  The depth-first loops are
`Walk.walk`.
-/

namespace MindooDB

variable (localeCompare : JSString → JSString → ℤ)

def compareByCreatedAtThenId (left right : StoreEntryMetadata) : ℤ :=
  if left.createdAt ≠ right.createdAt then left.createdAt - right.createdAt
  else localeCompare left.id right.id

/-! ## Deletion -/

/-- The replay entries that no replay entry depends on. -/
def findActiveReplayHeadEntryIds (replayEntries : List StoreEntryMetadata) : List JSString :=
  let referenced := referencedIds (entriesById replayEntries) replayEntries
  (sortBy (compareByCreatedAtThenId localeCompare)
    (replayEntries.filter fun e => e.id ∉ referenced)).map (·.id)

def collectReplayAncestors (replayById : EntryMap) (startEntryId : JSString) : LinkedSet JSString :=
  (Walk.walk replayById.has (dependenciesOf replayById) (walkFuel replayById [startEntryId])
    [startEntryId] ∅).getD ∅

/-- `LIFECYCLE_TERMINAL_ENTRY_TYPES`. -/
def isLifecycleTerminal (replayById : EntryMap) (id : JSString) : Bool :=
  (replayById.get? id).any fun e => e.entryType = .docDelete || e.entryType = .docUndelete

/-- The lifecycle entries below the heads. -/
def reachableTerminalIds (headEntryIds : List JSString) (replayById : EntryMap) :
    LinkedSet JSString :=
  headEntryIds.foldl (fun reachable head => reachable.addAll
    ((collectReplayAncestors replayById head).toList.filter (isLifecycleTerminal replayById))) ∅

/-- Those that no other of them depends on. -/
def survivingTerminalIds (replayById : EntryMap) (terminalIds : List JSString) : List JSString :=
  terminalIds.filter fun candidate => !terminalIds.any fun other =>
    other ≠ candidate && candidate ∈ collectReplayAncestors replayById other

/-- Whether the latest of them deletes the document. -/
def isDeletedFromHeads (headEntryIds : List JSString) (replayById : EntryMap) : Bool :=
  let terminalIds := (reachableTerminalIds headEntryIds replayById).toList
  let latestTerminal := (sortBy (compareByCreatedAtThenId localeCompare)
    ((survivingTerminalIds replayById terminalIds).filterMap replayById.get?)).getLast?
  latestTerminal.any fun e => e.entryType = .docDelete

/-- Deleted, by the heads of its replay entries. -/
def computeIsDeletedFromMetadata (metadata : List StoreEntryMetadata) : Bool :=
  let replayEntries := metadata.filter isReplayEntry
  isDeletedFromHeads localeCompare (findActiveReplayHeadEntryIds localeCompare replayEntries)
    (entriesById replayEntries)

/-! ## Grounding -/

/-- What the snapshots of a slice vouch for. -/
def vouchedIds (sliceEntries : List StoreEntryMetadata) (replayById : EntryMap) :
    LinkedSet JSString :=
  sliceEntries.foldl (fun vouched entry =>
    if entry.entryType = .docSnapshot then
      (Walk.walk (fun _ => true) (dependenciesOf replayById)
        (walkFuel replayById (snapshotRoots entry)) (snapshotRoots entry).reverse vouched).getD vouched
    else vouched) ∅

/-- A dependency is neither in the slice nor vouched for. -/
def hasMissingDependency (replayById : EntryMap) (vouched : LinkedSet JSString)
    (entry : StoreEntryMetadata) : Bool :=
  entry.dependencyIds.any fun id => !replayById.has id && id ∉ vouched

/-- The replay entries that name an entry as a dependency. -/
def childIds (replayEntries : List StoreEntryMetadata) (id : JSString) : List JSString :=
  (replayEntries.filter fun e => id ∈ e.dependencyIds).map (·.id)

/-- The slice without the replay entries that rest on what is missing. -/
def pruneToGroundedEntries (sliceEntries : List StoreEntryMetadata) : List StoreEntryMetadata :=
  let replayEntries := sliceEntries.filter isReplayEntry
  let replayById := entriesById replayEntries
  let vouched := vouchedIds sliceEntries replayById
  let seeds := (replayEntries.filter fun e =>
    hasMissingDependency replayById vouched e && e.id ∉ vouched).map (·.id)
  let fuel := seeds.length + (replayById.keys.map fun id => (childIds replayEntries id).length).sum
  let ungrounded := (Walk.walk (fun id => id ∉ vouched) (childIds replayEntries) fuel seeds.reverse
    ∅).getD ∅
  sliceEntries.filter fun e => e.id ∉ ungrounded

end MindooDB
