import MindooDB.Lib.Async
import MindooDB.Lib.LinkedMap
import MindooDB.Store.ScanUtils

/-!
# Store/OnDisk — how the on-disk store reads metadata

`node/appendonlystores/BasicOnDiskContentAddressedStore.ts` over a directory and the memory of the
process, as far as metadata is read.  A file operation is one step, and so is what stands between
two awaits.  Entry files are found by the id that their names encode.

Each step also tells what its call is in the middle of (`Activity`); no program reads that.
-/

namespace MindooDB

/-- A record of a metadata segment. -/
inductive MetadataSegmentRecord where
  | upsert (metadata : StoreEntryMetadata)
  | delete (id : JSString)
  deriving DecidableEq

/-- **The fields of a `BasicOnDiskContentAddressedStore`** that change while it is open. -/
structure OnDiskMemory where
  entries : LinkedMap JSString StoreEntryMetadata := ∅
  docIndex : LinkedMap JSString (LinkedSet JSString) := ∅
  contentRefCount : LinkedMap JSString ℤ := ∅
  orderedMetadata : List StoreEntryMetadata := []
  nextReceiptOrder : ℤ := 1
  storeEpoch : JSString := ""
  appliedMetadataSegmentFiles : LinkedSet JSString := ∅
  /-- The calls queued on the promise chain; the first one is running. -/
  receiptOrderWriteChain : List ℕ := []
  deriving DecidableEq

/-- **The directory of a store.** -/
structure Disk where
  entryFiles : LinkedMap JSString StoreEntryMetadata := ∅
  contentFiles : LinkedMap JSString (List UInt8) := ∅
  metadataIndex : Option (List StoreEntryMetadata) := none
  metadataSegments : LinkedMap JSString (List MetadataSegmentRecord) := ∅
  storeEpochFile : Option JSString := none
  deriving DecidableEq

structure OnDiskStore where
  disk : Disk := {}
  memory : OnDiskMemory := {}
  deriving DecidableEq

/-- What is settled when the store is constructed; `localeCompare` is the collation of the process. -/
structure OnDiskConfig where
  indexingEnabled : Bool := true
  metadataSegmentCompactionMinFiles : ℕ := 32
  metadataSegmentCompactionMaxBytes : ℕ := 0
  localeCompare : JSString → JSString → ℤ

/-- What the environment decides for a step: whether a write fails, in which order a directory is
listed, the name or uuid that is drawn, the size of a file. -/
structure DiskChoice where
  writeFails : Bool := false
  listing : List JSString := []
  fresh : JSString := ""
  size : ℕ := 0

/-- What a call is in the middle of. -/
inductive Phase where
  | quiet
  /-- A file operation has failed, and the call with it. -/
  | threw
  /-- It has read the metadata of an entry. -/
  | witnessing (id : JSString) (existing : StoreEntryMetadata)

/-- **Where a call stands**: what it is in the middle of, and the mutations it has made that no
segment records yet. -/
structure Activity where
  phase : Phase := .quiet
  records : List MetadataSegmentRecord := []

/-- A method of the store. -/
abbrev Call (α : Type) := Async DiskChoice OnDiskStore Activity α

namespace Call

/-! ## Files -/

/-- Look at the store. -/
def look {α : Type} (read : OnDiskStore → α) (activity : α → Activity) : Call α :=
  Async.atomic (fun _ w => (w, activity (read w))) fun _ w => read w

def fileExists (there : Disk → Bool) (activity : Bool → Activity) : Call Bool :=
  look (fun w => there w.disk) activity

section Methods

variable (cfg : OnDiskConfig)

/-- What `readMetadataById` makes of the index or of the entry's file. -/
def reread (id : JSString) (records : List MetadataSegmentRecord)
    (existing : Option StoreEntryMetadata) : Activity :=
  ⟨existing.elim .quiet fun existing => .witnessing id existing, records⟩

def readMetadataById (id : JSString) (records : List MetadataSegmentRecord) :
    Call (Option StoreEntryMetadata) :=
  if cfg.indexingEnabled then look (fun w => w.memory.entries.get? id) (reread id records)
  else do
    let there ← fileExists (fun disk => disk.entryFiles.has id) fun _ => ⟨.quiet, records⟩
    if there then
      -- `readFile` throws when the file has gone in between
      Async.orThrow
        (fun _ w =>
          match w.disk.entryFiles.get? id with
          | none => (w, ⟨.threw, records⟩)
          | some existing => (w, ⟨.witnessing id existing, records⟩))
        fun _ w => (w.disk.entryFiles.get? id).map some
    else pure none

end Methods

end Call

end MindooDB
