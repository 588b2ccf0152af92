import MindooDB.Lib.Batching
import MindooDB.Lib.JsonLength
import MindooDB.Network.BinaryFraming
import MindooDB.Server.PutEntries

/-!
# Network/PutBatches — pushing entries in bodies that a server accepts

`pushSerializedEntries` and `pushBinaryFrames` of `HttpTransport.ts`, with the batches that they
send.  A partition adds up what entries measure, with a comma between them in JSON; that is the
length of the body that is sent (`length_putEntriesBody`, `length_putEntriesBinaryBody`).  So no
body is longer than the limit, and a push is complete or stopped by a single entry
(`pushes_complete`).
-/

namespace MindooDB

open Batching JsonTree List

/-- What a transport is configured with. -/
structure PutConfig where
  tenantId : JSString
  dbId : Option JSString

/-- A server: its answer to a body, by the bodies before. -/
abbrev PutServer := List (List UInt8) → List UInt8 → Except NetworkError PutEntriesAck

/-- Receipts and rejections concatenate. -/
def mergePutAcks (acks : List PutEntriesAck) : PutEntriesAck where
  receipts := acks.flatMap (·.receipts)
  rejected := acks.flatMap (·.rejected)

instance : Zero PutEntriesAck := ⟨⟨[], []⟩⟩

instance : Add PutEntriesAck :=
  ⟨fun ack ack' => ⟨ack.receipts ++ ack'.receipts, ack.rejected ++ ack'.rejected⟩⟩

instance : AddMonoid PutEntriesAck where
  add_assoc _ _ _ := congrArg₂ PutEntriesAck.mk (append_assoc _ _ _) (append_assoc _ _ _)
  zero_add _ := rfl
  add_zero _ := congrArg₂ PutEntriesAck.mk (append_nil _) (append_nil _)
  nsmul := nsmulRec

theorem mergePutAcks_eq_sum (acks : List PutEntriesAck) : mergePutAcks acks = acks.sum := by
  induction acks with
  | nil => rfl
  | cons ack acks ih =>
    rw [sum_cons, ← ih]
    rfl

/-- What is thrown for an entry that is too long by itself. -/
def singleEntryError (id : JSString) (maxBodyBytes : ℕ) : NetworkError where
  type := .payloadTooLarge
  message := ("Single entry " : JSString) ++ id
    ++ (" exceeds remote request body limit of " : JSString) ++ JSString.ofNat maxBodyBytes
    ++ (" bytes" : JSString)

/-- The other side of a push whose requests are bodies. -/
def putGateway {E : Type} (server : PutServer) (body : List E → List UInt8) (id : E → JSString)
    (emptyBodyBytes : ℕ) (entryBodyBytes : E → ℕ) (separatorBytes : ℕ) :
    Gateway E NetworkError PutEntriesAck where
  emptyBodyBytes := emptyBodyBytes
  entryBodyBytes := entryBodyBytes
  separatorBytes := separatorBytes
  tooLarge maxBodyBytes entry := singleEntryError (id entry) maxBodyBytes
  isTooLarge error := error.type = .payloadTooLarge
  merge := mergePutAcks
  merge_eq_sum := mergePutAcks_eq_sum
  answer log entries := server (log.map fun exchange => body exchange.entries) (body entries)

/-! ## JSON bodies -/

section Json

variable (config : PutConfig)

def putEntriesTree (entries : List SerializedEntry) : JsonTree :=
  .object (JsonFormat.members
    [("tenantId", some (.string config.tenantId)), ("dbId", config.dbId.map .string),
      ("entries", some (.array (entries.map WireFormat.entry.write)))])

def measureBodyBytes (value : JSString) : ℕ := (TextEncoding.encode value).length

/-- The body of `postSerializedEntries`. -/
def putEntriesBody (entries : List SerializedEntry) : List UInt8 :=
  TextEncoding.encode (putEntriesTree config entries).stringify

def serializedGateway (server : PutServer) :
    Gateway SerializedEntry NetworkError PutEntriesAck :=
  putGateway server (putEntriesBody config) (·.id)
    (measureBodyBytes (putEntriesTree config []).stringify)
    (fun entry => measureBodyBytes (WireFormat.entry.write entry).stringify) 1

def partitionSerializedEntriesForMaxBodySize (server : PutServer)
    (serializedEntries : List SerializedEntry) (maxBodyBytes : ℕ) :=
  partition (serializedGateway config server) maxBodyBytes serializedEntries

def sendSerializedEntriesBatch (server : PutServer) (fuel : ℕ)
    (serializedEntries : List SerializedEntry) (maxBodyBytes : Option ℕ) :=
  sendBatch (serializedGateway config server) maxBodyBytes fuel serializedEntries

def pushSerializedEntries (server : PutServer) (fuel : ℕ)
    (serializedEntries : List SerializedEntry) (maxBodyBytes : Option ℕ) :=
  push (serializedGateway config server) maxBodyBytes fuel serializedEntries []

end Json

/-! ## Binary bodies -/

section Binary

variable (config : PutConfig)

def binaryPutHeader : JsonTree :=
  .object (JsonFormat.members
    [("format", some (.string "mdb-put-v2")), ("tenantId", some (.string config.tenantId)),
      ("dbId", config.dbId.map .string)])

/-- A frame, as a client has it. -/
abbrev PutFrame := BinaryFraming.BinaryEntryFrame SerializedEntryMetadata

/-- A frame with its metadata as JSON. -/
def wireFrame (frame : PutFrame) :
    BinaryFraming.BinaryEntryFrame JsonTree :=
  ⟨WireFormat.metadata.write frame.metadata, frame.payload⟩

def measurePut (frames : List PutFrame) : ℕ :=
  BinaryFraming.measureBinaryEntryMessage BinaryFraming.integerJson (binaryPutHeader config)
    (frames.map wireFrame)

/-- The body of `postBinaryFrames`. -/
def putEntriesBinaryBody (frames : List PutFrame) : List UInt8 :=
  BinaryFraming.encodeBinaryEntryMessage BinaryFraming.integerJson
    ⟨binaryPutHeader config, frames.map wireFrame⟩

def binaryGateway (server : PutServer) : Gateway PutFrame NetworkError PutEntriesAck :=
  putGateway server (putEntriesBinaryBody config) (·.metadata.id) (measurePut config [])
    (fun frame => measurePut config [frame] - measurePut config []) 0

def partitionBinaryFramesForMaxBodySize (server : PutServer) (frames : List PutFrame)
    (maxBodyBytes : ℕ) :=
  partition (binaryGateway config server) maxBodyBytes frames

def sendBinaryFramesBatch (server : PutServer) (fuel : ℕ) (frames : List PutFrame)
    (maxBodyBytes : Option ℕ) :=
  sendBatch (binaryGateway config server) maxBodyBytes fuel frames

def pushBinaryFrames (server : PutServer) (fuel : ℕ) (frames : List PutFrame)
    (maxBodyBytes : Option ℕ) :=
  push (binaryGateway config server) maxBodyBytes fuel frames []

end Binary

/-! ## The lengths of bodies -/

section Lengths

open TextEncoding

variable (config : PutConfig)

/-- A JSON body is as long as an empty one and what stands between its brackets. -/
theorem measureBodyBytes_putEntriesTree (entries : List SerializedEntry) :
    (putEntriesBody config entries).length
      = measureBodyBytes (putEntriesTree config []).stringify
        + (encode (JSString.join ","
            (entries.map fun entry => (WireFormat.entry.write entry).stringify))).length := by
  obtain ⟨n, hn⟩ := length_stringify_snoc ("tenantId", .string config.tenantId)
    (JsonFormat.members [("dbId", config.dbId.map .string)]) "entries"
  have htree : ∀ entries, (encode (putEntriesTree config entries).stringify).length
      = n + (encode (array (entries.map WireFormat.entry.write)).stringify).length := by
    intro entries
    rw [← hn, putEntriesTree]
    cases config.dbId with
    | none => rfl
    | some dbId => rfl
  have harray : ∀ items, (encode (array items).stringify).length
      = (encode (JsonText.array [])).length
        + (encode (JSString.join "," (items.map stringify))).length := by
    intro items
    rw [stringify, JsonText.length_encode_array (isWellFormed_stringifyItems items),
      stringifyItems_eq_map]
  rw [putEntriesBody, measureBodyBytes, htree, htree, harray, harray, map_map]
  have hempty : (encode (JSString.join ","
      (List.map stringify (List.map WireFormat.entry.write [])))).length = 0 := rfl
  rw [hempty, Nat.add_zero, Nat.add_assoc]
  rfl

/-- **JSON bodies** are as long as a partition counts. -/
theorem length_putEntriesBody (server : PutServer) (entries : List SerializedEntry) :
    (putEntriesBody config entries).length
      = Batching.bodyBytes (serializedGateway config server) entries := by
  rw [measureBodyBytes_putEntriesTree]
  cases entries with
  | nil =>
    have hempty : (encode (JSString.join "," [])).length = 0 := rfl
    rw [map_nil, hempty, Nat.add_zero, Batching.bodyBytes, serializedGateway, putGateway]
  | cons entry entries =>
    have hwell : ∀ text ∈ (entry :: entries).map fun entry =>
        (WireFormat.entry.write entry).stringify, IsWellFormed text := by
      intro text htext
      obtain ⟨entry', -, rfl⟩ := mem_map.mp htext
      exact isWellFormed_stringify _
    rw [map_cons] at hwell ⊢
    rw [JsonText.length_encode_join hwell, Batching.bodyBytes, map_map, ← Nat.add_assoc,
      serializedGateway, putGateway]
    simp only [measureBodyBytes, Function.comp_def]

theorem measure_eq_add_sum {J : Type} (json : JsonLanguage J) (header : J)
    (frames : List (BinaryFraming.BinaryEntryFrame J)) :
    BinaryFraming.measureBinaryEntryMessage json header frames
      = BinaryFraming.measureBinaryEntryMessage json header []
        + (frames.map fun frame => (BinaryFraming.frameBytes json frame).length).sum := by
  have hmeasure : ∀ frames, BinaryFraming.measureBinaryEntryMessage json header frames
      = (BinaryFraming.encodeBinaryEntryMessage json ⟨header, frames⟩).length :=
    fun frames => BinaryFraming.measure_eq ⟨header, frames⟩
  rw [hmeasure, hmeasure, BinaryFraming.encodeBinaryEntryMessage,
    BinaryFraming.encodeBinaryEntryMessage, length_append, length_append,
    length_flatMap, flatMap_nil, length_nil, Nat.add_zero]

theorem measurePut_eq (frames : List PutFrame) : measurePut config frames = measurePut config []
    + (frames.map fun frame => measurePut config [frame] - measurePut config []).sum := by
  have hone : ∀ frame, measurePut config [frame] - measurePut config []
      = (BinaryFraming.frameBytes BinaryFraming.integerJson (wireFrame frame)).length := by
    intro frame
    rw [measurePut, measure_eq_add_sum, measurePut, map_nil, map_singleton,
      map_singleton, sum_singleton, Nat.add_sub_cancel_left]
  simp only [hone]
  rw [measurePut, measure_eq_add_sum, map_map, measurePut, map_nil, Function.comp_def]

/-- **Binary bodies** are as long as a partition counts. -/
theorem length_putEntriesBinaryBody (server : PutServer) (frames : List PutFrame) :
    (putEntriesBinaryBody config frames).length
      = Batching.bodyBytes (binaryGateway config server) frames := by
  have hbody : (putEntriesBinaryBody config frames).length = measurePut config frames :=
    (BinaryFraming.measure_eq ⟨binaryPutHeader config, frames.map wireFrame⟩).symm
  rw [hbody, measurePut_eq]
  cases frames with
  | nil =>
    rw [map_nil, sum_nil, Nat.add_zero, Batching.bodyBytes, binaryGateway, putGateway]
  | cons frame frames =>
    rw [map_cons, sum_cons, ← Nat.add_assoc, Batching.bodyBytes, binaryGateway, putGateway]
    simp only [Nat.zero_add]

end Lengths

/-! ## Pushes -/

section Pushes

variable {E : Type}

/-- **A push is complete**: whatever the limit, it ends; its bodies are within the limit; where it
returns, the requests that succeeded carry just the entries and their answers make up the result;
and it throws for a single entry only. -/
def PushesCompletely (server : PutServer) (body : List E → List UInt8)
    (push : ℕ → List E → Option ℕ → Option (List (Exchange E NetworkError PutEntriesAck)
      × Except NetworkError PutEntriesAck)) : Prop :=
  ∀ entries maxBodyBytes fuel, entries.length ≤ fuel → ∃ exchanges result,
    push fuel entries maxBodyBytes = some (exchanges, result)
    ∧ (∀ before exchange, before ++ [exchange] <+: exchanges → exchange.answer
        = server (before.map fun earlier => body earlier.entries) (body exchange.entries))
    ∧ (∀ exchange ∈ exchanges, ∀ limit, maxBodyBytes = some limit →
        (body exchange.entries).length ≤ limit)
    ∧ (∀ ack, result = .ok ack → (successes exchanges).flatMap Prod.fst = entries
        ∧ ack = mergePutAcks ((successes exchanges).map Prod.snd))
    ∧ ∀ e, result = .error e → ∃ entry ∈ entries,
        (∃ limit, maxBodyBytes = some limit ∧ limit < (body [entry]).length)
          ∨ ∃ exchange ∈ exchanges, exchange.entries = [entry]
            ∧ ∃ refusal, exchange.answer = .error refusal

theorem pushesCompletely_putGateway {server : PutServer} {body : List E → List UInt8}
    {id : E → JSString} {emptyBodyBytes separatorBytes : ℕ} {entryBodyBytes : E → ℕ}
    (hserver : ∀ log body e, server log body = .error e → e.type = .payloadTooLarge)
    (hlength : ∀ entries, (body entries).length = Batching.bodyBytes
      (putGateway server body id emptyBodyBytes entryBodyBytes separatorBytes) entries) :
    PushesCompletely server body fun fuel entries maxBodyBytes => push
      (putGateway server body id emptyBodyBytes entryBodyBytes separatorBytes) maxBodyBytes fuel
        entries [] := by
  intro entries maxBodyBytes fuel hfuel
  have hempty : Transcript
      (putGateway server body id emptyBodyBytes entryBodyBytes separatorBytes) [] :=
    fun before exchange hprefix => absurd (prefix_nil.mp hprefix) (concat_ne_nil _ _)
  obtain ⟨exchanges, result, hpush, htranscript, houtcome⟩ :=
    push_spec (m := maxBodyBytes) hfuel [] hempty
  rw [nil_append] at hpush htranscript
  refine ⟨exchanges, result, hpush, htranscript, fun exchange hmem limit hlimit => ?_,
    houtcome.complete, fun e herror => ?_⟩
  · rw [hlength]
    exact houtcome.fits exchange hmem limit hlimit
  · rcases houtcome.justified e herror with ⟨entry, hentry, hexceeds | hrefused⟩ | hother
    · obtain ⟨limit, hlimit, hlt⟩ := hexceeds
      exact ⟨entry, hentry, .inl ⟨limit, hlimit, by rwa [hlength]⟩⟩
    · obtain ⟨exchange, hmem, halone, refusal, hanswer, -⟩ := hrefused
      exact ⟨entry, hentry, .inr ⟨exchange, hmem, halone, refusal, hanswer⟩⟩
    · -- a server that refuses for nothing else
      obtain ⟨exchange, hmem, hanswer, hother⟩ := hother
      obtain ⟨before, after, rfl⟩ := append_of_mem hmem
      have htooLarge := hserver _ _ e ((htranscript before exchange
        ⟨after, by rw [append_assoc, singleton_append]⟩).symm.trans hanswer)
      exact absurd htooLarge (of_decide_eq_false hother)

end Pushes

/-- **Batched pushes are complete**, in JSON and in binary. -/
theorem pushes_complete (config : PutConfig) (server : PutServer)
    (hserver : ∀ log body e, server log body = .error e → e.type = .payloadTooLarge) :
    PushesCompletely server (putEntriesBody config) (pushSerializedEntries config server)
      ∧ PushesCompletely server (putEntriesBinaryBody config) (pushBinaryFrames config server) :=
  ⟨pushesCompletely_putGateway hserver (length_putEntriesBody config server),
    pushesCompletely_putGateway hserver (length_putEntriesBinaryBody config server)⟩

/-- A server that takes bodies of at most two hundred bytes. -/
def smallBodies : PutServer := fun _ body =>
  if body.length ≤ 200 then .ok ⟨[], []⟩ else .error ⟨.payloadTooLarge, "Request body too large"⟩

def notesConfig : PutConfig := ⟨"tenant", some ("notes" : JSString)⟩

theorem pushes_complete_smallBodies :
    PushesCompletely smallBodies (putEntriesBody notesConfig)
        (pushSerializedEntries notesConfig smallBodies)
      ∧ PushesCompletely smallBodies (putEntriesBinaryBody notesConfig)
        (pushBinaryFrames notesConfig smallBodies) :=
  pushes_complete _ _ fun _ body e h => by
    rw [smallBodies] at h
    split_ifs at h
    obtain rfl := Except.error.inj h
    rfl

end MindooDB
