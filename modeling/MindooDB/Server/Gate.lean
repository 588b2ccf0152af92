import MindooDB.Lib.Run
import MindooDB.Server.PutEntries

/-!
# Server/Gate — the two ways into a docs store

Clients push through `handlePutEntries`; `syncDatabase` of `node/server/ServerSync.ts` takes what a
remote server hands out and puts it into the store as it is.  So a store holds authentic entries only
(`forall_authentic_iff`) exactly when each entry that a sync adds is authentic by luck: a push demands
it, a sync does not.
-/

namespace MindooDB

open LinkedMap SyncStore

namespace SyncStore

/-- The payload that an entry is stored with: that of its hash, if there is one. -/
def payloadFor (s : SyncStore) (entry : SyncEntry) : List UInt8 :=
  (s.contentStore.get? entry.contentHash).getD entry.encryptedData

/-- Metadata stands under its id, and has a payload; each payload is one of an entry's. -/
structure Consistent (s : SyncStore) : Prop where
  id_eq : ∀ id metadata, s.entries.get? id = some metadata → metadata.id = id
  has_content : ∀ id metadata, s.entries.get? id = some metadata →
    s.contentStore.has metadata.contentHash = true
  has_entry : ∀ hash, s.contentStore.has hash = true →
    ∃ id metadata, s.entries.get? id = some metadata ∧ metadata.contentHash = hash

theorem consistent_empty : Consistent {} where
  id_eq _ _ h := nomatch h
  has_content _ _ h := nomatch h
  has_entry _ h := nomatch h

variable {s : SyncStore} {entry : SyncEntry}

theorem putEntry_of_has (h : s.entries.has entry.id = true) : s.putEntry entry = s := by
  rw [putEntry, if_pos h]

/-- What is put, as it is stored. -/
def stored (s : SyncStore) (entry : SyncEntry) : SyncEntry :=
  ⟨entry.toSyncEntryMetadata.withReceiptOrder s.nextReceiptOrder, s.payloadFor entry⟩

theorem get?_entries_putEntry (h : s.entries.has entry.id = false) (id : JSString) :
    (s.putEntry entry).entries.get? id
      = if id = entry.id then some (s.stored entry).toSyncEntryMetadata else s.entries.get? id := by
  rw [putEntry, if_neg (by rw [h]; exact Bool.false_ne_true)]
  exact get?_set _ _ _ _

theorem get?_contentStore_putEntry (h : s.entries.has entry.id = false) (hash : JSString) :
    (s.putEntry entry).contentStore.get? hash
      = if hash = entry.contentHash then some (s.payloadFor entry)
        else s.contentStore.get? hash := by
  rw [putEntry, if_neg (by rw [h]; exact Bool.false_ne_true), payloadFor]
  rcases hcontent : s.contentStore.get? entry.contentHash with _ | payload
  · rw [if_neg (by simp [has, hcontent]), get?_set]
    rfl
  · rw [if_pos (has_iff.mpr ⟨payload, hcontent⟩)]
    split
    · rename_i heq
      rw [heq, hcontent]
      rfl
    · rfl

theorem Consistent.putEntry (hs : s.Consistent) : (s.putEntry entry).Consistent := by
  rcases hhas : s.entries.has entry.id with _ | _
  swap
  · rwa [putEntry_of_has hhas]
  have hcontent : ∀ hash, (s.putEntry entry).contentStore.has hash = true
      ↔ hash = entry.contentHash ∨ s.contentStore.has hash = true := by
    intro hash
    rw [has, has, get?_contentStore_putEntry hhas]
    split
    · rename_i heq
      simp [heq]
    · rename_i hne
      simp [hne]
  refine ⟨fun id metadata h => ?_, fun id metadata h => ?_, fun hash h => ?_⟩
  · rw [get?_entries_putEntry hhas] at h
    split at h
    · rename_i heq
      exact Option.some.inj h ▸ heq.symm
    · exact hs.id_eq id metadata h
  · rw [get?_entries_putEntry hhas] at h
    split at h
    · obtain rfl := Option.some.inj h
      exact (hcontent _).mpr (.inl rfl)
    · exact (hcontent _).mpr (.inr (hs.has_content id metadata h))
  · rcases (hcontent hash).mp h with rfl | hold
    · exact ⟨entry.id, (s.stored entry).toSyncEntryMetadata,
        (get?_entries_putEntry hhas _).trans (if_pos rfl), rfl⟩
    · obtain ⟨id, metadata, hget, rfl⟩ := hs.has_entry hash hold
      refine ⟨id, metadata, ?_, rfl⟩
      rw [get?_entries_putEntry hhas, if_neg, hget]
      rintro rfl
      rw [has_eq_false_iff.mp hhas] at hget
      cases hget

theorem Consistent.putEntries (hs : s.Consistent) (entries : List SyncEntry) :
    (s.putEntries entries).Consistent := by
  rw [SyncStore.putEntries]
  induction entries generalizing s with
  | nil => exact hs
  | cons entry entries ih => exact ih hs.putEntry

/-- **Putting an entry** adds it, with the payload of its hash. -/
theorem holds_putEntry (hs : s.Consistent) (hhas : s.entries.has entry.id = false) {e : SyncEntry} :
    (s.putEntry entry).Holds e ↔ s.Holds e ∨ e = s.stored entry := by
  rw [Holds, Holds, get?_entries_putEntry hhas, get?_contentStore_putEntry hhas]
  constructor
  · rintro ⟨hentry, hpayload⟩
    split at hentry
    · obtain ⟨metadata, encryptedData⟩ := e
      obtain rfl := Option.some.inj hentry
      obtain rfl := Option.some.inj ((if_pos rfl).symm.trans hpayload)
      exact .inr rfl
    · refine .inl ⟨hentry, ?_⟩
      split at hpayload
      · rename_i heq
        obtain ⟨payload, hget⟩ := has_iff.mp (hs.has_content _ _ hentry)
        rw [heq] at hget
        rw [payloadFor, hget] at hpayload
        rw [heq, hget]
        exact hpayload
      · exact hpayload
  · rintro (⟨hentry, hpayload⟩ | rfl)
    · refine ⟨?_, ?_⟩
      · rw [if_neg, hentry]
        rintro heq
        rw [heq, has_eq_false_iff.mp hhas] at hentry
        cases hentry
      · split
        · rename_i heq
          rw [heq] at hpayload
          rw [payloadFor, hpayload]
          rfl
        · exact hpayload
    · exact ⟨if_pos rfl, if_pos rfl⟩

end SyncStore

/-! ## The server -/

/-- What a remote server answers; `none` is a failure. -/
structure RemoteServer where
  findNewEntries : List JSString → Option (List SyncEntryMetadata)
  getEntries : List JSString → Option (List SyncEntry)
  getAllIds : Option (List JSString)

structure SyncResult where
  entriesPulled : List SyncEntry
  entriesPushed : List SyncEntry

/-- What a sync puts into the local store. -/
def RemoteServer.pulled (remote : RemoteServer) (s : SyncStore) : List SyncEntry :=
  ((remote.findNewEntries s.entries.keys).bind fun newFromRemote =>
    if newFromRemote.length > 0 then remote.getEntries (newFromRemote.map (·.id)) else some []).getD []

/-- The store after a sync; its result, unless the sync fails on the way. -/
def syncDatabase (s : SyncStore) (remote : RemoteServer) : SyncStore × Option SyncResult :=
  let entries := remote.pulled s
  let s' := s.putEntries entries
  (s', do
    let newFromRemote ← remote.findNewEntries s.entries.keys
    let _ ← if newFromRemote.length > 0 then remote.getEntries (newFromRemote.map (·.id)) else some []
    let remoteIds ← remote.getAllIds
    some ⟨entries, s'.getEntries (s'.entries.keys.filter fun id => id ∉ remoteIds)⟩)

inductive ServerEvent where
  | push (ctx : PutContext) (entries : List SyncEntry)
  | sync (remote : RemoteServer)

variable (crypto : EntryCrypto) (validatePublicSigningKey : JSString → Bool)

/-- A call that throws leaves the store as it is. -/
def serverStep (s : SyncStore) : ServerEvent → SyncStore
  | .push ctx entries =>
    match handlePutEntries crypto validatePublicSigningKey s ctx entries with
    | .ok (s', _) => s'
    | .error _ => s
  | .sync remote => (syncDatabase s remote).1

/-- What is new of an entry passes the checks of a push. -/
def PassesGate (s : SyncStore) (entry : SyncEntry) : Prop :=
  s.entries.has entry.id = true
    ∨ Authentic crypto validatePublicSigningKey entry.toSyncEntryMetadata (s.payloadFor entry)

/-- **What a sync adds passes the checks of a push.** -/
def PullsAuthentic (s : SyncStore) : ServerEvent → Prop
  | .push _ _ => True
  | .sync remote => Run.AllSteps putEntry (PassesGate crypto validatePublicSigningKey) s
      (remote.pulled s)

/-- The store holds authentic entries only. -/
def HoldsAuthentic (s : SyncStore) : Prop :=
  ∀ entry : SyncEntry, s.Holds entry →
    Authentic crypto validatePublicSigningKey entry.toSyncEntryMetadata entry.encryptedData

variable {crypto validatePublicSigningKey} {s : SyncStore}

theorem holdsAuthentic_putEntry {entry : SyncEntry} (hs : s.Consistent) :
    HoldsAuthentic crypto validatePublicSigningKey (s.putEntry entry)
      ↔ HoldsAuthentic crypto validatePublicSigningKey s
        ∧ PassesGate crypto validatePublicSigningKey s entry := by
  rcases hhas : s.entries.has entry.id with _ | _
  · rw [PassesGate, hhas, HoldsAuthentic, HoldsAuthentic]
    simp only [holds_putEntry hs hhas, Bool.false_eq_true, false_or, or_imp, forall_and,
      forall_eq, stored, authentic_withReceiptOrder]
  · rw [putEntry_of_has hhas, PassesGate, hhas]
    simp

theorem holdsAuthentic_putEntries (hs : s.Consistent) (entries : List SyncEntry) :
    HoldsAuthentic crypto validatePublicSigningKey (s.putEntries entries)
      ↔ HoldsAuthentic crypto validatePublicSigningKey s
        ∧ Run.AllSteps putEntry (PassesGate crypto validatePublicSigningKey) s entries :=
  Run.run_iff _ hs (fun _ _ => Consistent.putEntry) (fun _ _ => holdsAuthentic_putEntry) entries

section CollisionFree

variable (hinjective : Function.Injective crypto.computeContentHash)

include hinjective

/-- Of authentic entries one hash has one payload. -/
theorem payloadFor_eq {entry : SyncEntry} (hs : s.Consistent)
    (hgood : HoldsAuthentic crypto validatePublicSigningKey s)
    (hentry : Authentic crypto validatePublicSigningKey entry.toSyncEntryMetadata entry.encryptedData) :
    s.payloadFor entry = entry.encryptedData := by
  rw [payloadFor]
  rcases hcontent : s.contentStore.get? entry.contentHash with _ | payload
  · rfl
  · obtain ⟨id, metadata, hget, hhash⟩ := hs.has_entry _ (has_iff.mpr ⟨payload, hcontent⟩)
    have hheld : s.Holds ⟨metadata, payload⟩ :=
      ⟨(hs.id_eq id metadata hget).symm ▸ hget, hhash.symm ▸ hcontent⟩
    exact hinjective (((hgood _ hheld).1.trans hhash).trans hentry.1.symm)

theorem holdsAuthentic_putEntries_of_forall (hs : s.Consistent)
    (hgood : HoldsAuthentic crypto validatePublicSigningKey s) {entries : List SyncEntry}
    (hentries : ∀ entry ∈ entries,
      Authentic crypto validatePublicSigningKey entry.toSyncEntryMetadata entry.encryptedData) :
    HoldsAuthentic crypto validatePublicSigningKey (s.putEntries entries) := by
  rw [SyncStore.putEntries]
  induction entries generalizing s with
  | nil => exact hgood
  | cons entry entries ih =>
    obtain ⟨hentry, hrest⟩ := List.forall_mem_cons.mp hentries
    refine ih hs.putEntry ((holdsAuthentic_putEntry hs).mpr ⟨hgood, .inr ?_⟩) hrest
    rwa [payloadFor_eq hinjective hs hgood hentry]

theorem holdsAuthentic_serverStep (hs : s.Consistent) (event : ServerEvent) :
    HoldsAuthentic crypto validatePublicSigningKey
        (serverStep crypto validatePublicSigningKey s event)
      ↔ HoldsAuthentic crypto validatePublicSigningKey s
        ∧ PullsAuthentic crypto validatePublicSigningKey s event := by
  cases event with
  | push ctx entries =>
    rw [PullsAuthentic, and_true, serverStep]
    rcases hput : handlePutEntries crypto validatePublicSigningKey s ctx entries with _ | ⟨s', ack⟩
    · rfl
    · obtain ⟨toStore, heq, hkept⟩ := authentic_of_handlePutEntries hput
      obtain rfl : s' = s.putEntries toStore := heq
      exact ⟨fun h => ((holdsAuthentic_putEntries hs toStore).mp h).1,
        fun h => holdsAuthentic_putEntries_of_forall hinjective hs h hkept⟩
  | sync remote => exact holdsAuthentic_putEntries hs (remote.pulled s)

end CollisionFree

theorem SyncStore.Consistent.serverStep (hs : s.Consistent) (event : ServerEvent) :
    (serverStep crypto validatePublicSigningKey s event).Consistent := by
  cases event with
  | push ctx entries =>
    rw [MindooDB.serverStep]
    rcases hput : handlePutEntries crypto validatePublicSigningKey s ctx entries with _ | ⟨s', ack⟩
    · exact hs
    · obtain ⟨toStore, heq, -⟩ := authentic_of_handlePutEntries hput
      obtain rfl : s' = s.putEntries toStore := heq
      exact hs.putEntries toStore
  | sync remote => exact hs.putEntries (remote.pulled s)

/-- **A docs store holds authentic entries only** exactly when every entry that a sync adds to it
passes the checks that only a push makes. -/
theorem forall_authentic_iff (crypto : EntryCrypto) (validatePublicSigningKey : JSString → Bool)
    (hinjective : Function.Injective crypto.computeContentHash) (events : List ServerEvent) :
    (∀ entry : SyncEntry,
        (Run.run (serverStep crypto validatePublicSigningKey) {} events).Holds entry →
          Authentic crypto validatePublicSigningKey entry.toSyncEntryMetadata entry.encryptedData)
      ↔ Run.AllSteps (serverStep crypto validatePublicSigningKey)
        (PullsAuthentic crypto validatePublicSigningKey) {} events := by
  refine (Run.run_iff (HoldsAuthentic crypto validatePublicSigningKey)
    consistent_empty (fun _ event hs => hs.serverStep event)
    (fun _ event hs => holdsAuthentic_serverStep hinjective hs event) events).trans
    (and_iff_right ?_)
  exact fun entry hheld => nomatch hheld.1

/-! ## Two runs -/

section Runs

/-- Bytes are their own hash, and a signature names its key and repeats the message. -/
def plainCrypto : EntryCrypto where
  computeContentHash bytes := ⟨bytes.map fun byte => Fin.castLE (by decide) byte.toFin⟩
  canImport _ := true
  verify key signature message := signature = TextEncoding.encode key ++ message

theorem injective_computeContentHash_plainCrypto :
    Function.Injective plainCrypto.computeContentHash := by
  intro bytes bytes' h
  refine List.map_injective_iff.mpr ?_ (congrArg JSString.units h)
  exact (Fin.castLE_injective _).comp fun _ _ => UInt8.toFin_inj.mp

def trustsAlice (key : JSString) : Bool := key = "alice"

/-- A first change of a document, unsigned if the author is not Alice. -/
def changeBy (author id : JSString) (payload : List UInt8) : SyncEntry where
  entryType := .docChange
  id
  contentHash := plainCrypto.computeContentHash payload
  docId := "d"
  dependencyIds := []
  snapshotHeadEntryIds := none
  createdAt := 7
  receiptOrder := none
  receivedAt := none
  receivedByPublicKey := none
  receivedDateSignature := none
  receiptScheme := none
  decryptionKeyId := "default"
  createdByPublicKey := author
  signature := if trustsAlice author then TextEncoding.encode author ++ payload else []
  originalSize := 1
  encryptedSize := payload.length
  encryptedData := payload

/-- A server that hands out one entry. -/
def serverWith (entry : SyncEntry) : RemoteServer where
  findNewEntries _ := some [entry.toSyncEntryMetadata]
  getEntries _ := some [entry]
  getAllIds := some []

def openContext : PutContext where
  tokenPayload := .ok { sub := "alice", iat := 0, exp := 9, tenantId := "t" }
  receivedAt := 8

theorem forall_authentic_iff_honestRemote :
    (Run.run (serverStep plainCrypto trustsAlice) {}
        [.push openContext [changeBy "alice" "a" [1], changeBy "mallory" "m" [2]],
          .sync (serverWith (changeBy "alice" "b" [3]))]).entries.keys = ["a", "b"]
      ∧ ∀ entry : SyncEntry, (Run.run (serverStep plainCrypto trustsAlice) {}
          [.push openContext [changeBy "alice" "a" [1], changeBy "mallory" "m" [2]],
            .sync (serverWith (changeBy "alice" "b" [3]))]).Holds entry →
        Authentic plainCrypto trustsAlice entry.toSyncEntryMetadata entry.encryptedData :=
  ⟨by decide +kernel, (forall_authentic_iff plainCrypto trustsAlice
    injective_computeContentHash_plainCrypto _).mpr
      ⟨trivial, ⟨Or.inr ⟨by decide +kernel, by decide +kernel, by decide +kernel⟩, trivial⟩, trivial⟩⟩

/-- **A sync lets in** what a push refuses. -/
theorem not_authentic_forgedRemote :
    ¬∀ entry : SyncEntry, (Run.run (serverStep plainCrypto trustsAlice) {}
          [.sync (serverWith (changeBy "mallory" "m" [2]))]).Holds entry →
        Authentic plainCrypto trustsAlice entry.toSyncEntryMetadata entry.encryptedData := by
  intro h
  have hauthentic := h (stored {} (changeBy "mallory" "m" [2])) ⟨rfl, rfl⟩
  exact absurd hauthentic.2.1 (by decide +kernel)

end Runs

end MindooDB
