import MindooDB.Lib.Utf8
import MindooDB.Server.WireCodec

/-!
# Network/BinaryFraming — the binary bodies of entry transfers

`encodeBinaryEntryMessage`, `measureBinaryEntryMessage` and `decodeBinaryEntryMessage` of
`core/appendonlystores/network/binaryEntryFraming.ts`: a JSON header and, for each entry, JSON
metadata and a payload, each behind its length in four bytes.  Here with the offsets and the errors
of the code; `Server/WireCodec` has them as what is left to read.

Nothing says how many frames follow.  A body cut inside a chunk is refused (`decode_truncated`), but
one cut between two frames is a shorter message (`decode_take_header`), so that damage is detected
just in messages without entries (`detectsDamage_iff`).
-/

/-- **JSON texts**: what `JSON.stringify` writes, `JSON.parse` reads back. -/
structure JsonLanguage (J : Type) where
  stringify : J → JSString
  parse : JSString → Option J
  parse_stringify : ∀ v, parse (stringify v) = some v
  isWellFormed : ∀ v, TextEncoding.IsWellFormed (stringify v)
  no_mark : ∀ v, (stringify v).units.head? ≠ some 0xFEFF

namespace MindooDB.BinaryFraming

open ByteFormat List

/-- A header and the bytes behind it. -/
structure BinaryEntryFrame (J : Type) where
  metadata : J
  payload : List UInt8
  deriving DecidableEq

structure BinaryEntryMessage (J : Type) where
  header : J
  entries : List (BinaryEntryFrame J)
  deriving DecidableEq

inductive FramingError
  | truncatedLength (what : String)
  | truncated (what : String) (length : ℕ)
  | syntaxError
  /-- What `DataView` throws for a read outside of its bytes. -/
  | rangeError
  deriving DecidableEq

variable {J : Type} (json : JsonLanguage J)

/-- The bytes of a JSON text. -/
def jsonBytes (value : J) : List UInt8 := TextEncoding.encode (json.stringify value)

/-- A chunk behind its length. -/
def chunkBytes (chunk : List UInt8) : List UInt8 := (lengthPrefixed 4).write chunk

def frameBytes (entry : BinaryEntryFrame J) : List UInt8 :=
  chunkBytes (jsonBytes json entry.metadata) ++ chunkBytes entry.payload

/-- The bytes of a message. -/
def encodeBinaryEntryMessage (message : BinaryEntryMessage J) : List UInt8 :=
  chunkBytes (jsonBytes json message.header) ++ message.entries.flatMap (frameBytes json)

def measureBinaryEntryMessage (header : J) (entries : List (BinaryEntryFrame J)) : ℕ :=
  entries.foldl (fun total entry =>
    total + (4 + (jsonBytes json entry.metadata).length + 4 + entry.payload.length))
    (4 + (jsonBytes json header).length)

/-! ## Decoding -/

/-- `view.getUint32(offset, false)`. -/
def getUint32 (data : List UInt8) (offset : ℕ) : Except FramingError ℕ :=
  if offset + 4 ≤ data.length then .ok (ofBigEndian ((data.drop offset).take 4))
  else .error .rangeError

/-- `data.subarray(start, stop)`. -/
def subarray (data : List UInt8) (start stop : ℕ) : List UInt8 := (data.take stop).drop start

/-- A chunk, and the offset behind it. -/
def readChunk (data : List UInt8) (what : String) (offset : ℕ) :
    Except FramingError (List UInt8 × ℕ) :=
  if offset + 4 > data.length then .error (.truncatedLength what)
  else
    match getUint32 data offset with
    | .error e => .error e
    | .ok length =>
      if offset + 4 + length > data.length then .error (.truncated what length)
      else .ok (subarray data (offset + 4) (offset + 4 + length), offset + 4 + length)

/-- `JSON.parse(textDecoder.decode(chunk))`. -/
def parseChunk (chunk : List UInt8) : Except FramingError J :=
  match json.parse (Utf8.decode (chunk.map UInt8.toNat)) with
  | some value => .ok value
  | none => .error .syntaxError

theorem readChunk_spec {data : List UInt8} {what : String} {offset offset' : ℕ}
    {chunk : List UInt8} (h : readChunk data what offset = .ok (chunk, offset')) :
    offset + 4 ≤ offset' ∧ offset' ≤ data.length
      ∧ offset' = offset + 4 + ofBigEndian ((data.drop offset).take 4)
      ∧ chunk = subarray data (offset + 4) offset' := by
  unfold readChunk at h
  split_ifs at h with hlength
  unfold getUint32 at h
  rw [if_pos (not_lt.mp hlength)] at h
  dsimp only at h
  split_ifs at h with hchunk
  obtain ⟨rfl, rfl⟩ := Prod.mk.inj (Except.ok.inj h)
  exact ⟨Nat.le_add_right _ _, not_lt.mp hchunk, rfl, rfl⟩

/-- The frames from an offset on. -/
def decodeEntries (data : List UInt8) (offset : ℕ) :
    Except FramingError (List (BinaryEntryFrame J)) :=
  if offset < data.length then
    match _ : readChunk data "entry metadata" offset with
    | .error e => .error e
    | .ok (metaChunk, middle) =>
      match _ : readChunk data "entry payload" middle with
      | .error e => .error e
      | .ok (payload, next) =>
        match parseChunk json metaChunk with
        | .error e => .error e
        | .ok metadata =>
          match decodeEntries data next with
          | .error e => .error e
          | .ok entries => .ok ({ metadata, payload } :: entries)
  else .ok []
termination_by data.length - offset
decreasing_by
  have hmiddle := readChunk_spec ‹readChunk data "entry metadata" offset = _›
  have hnext := readChunk_spec ‹readChunk data "entry payload" _ = _›
  omega

/-- The message in some bytes, or an error. -/
def decodeBinaryEntryMessage (data : List UInt8) : Except FramingError (BinaryEntryMessage J) :=
  match readChunk data "header" 0 with
  | .error e => .error e
  | .ok (headerChunk, offset) =>
    match parseChunk json headerChunk with
    | .error e => .error e
    | .ok header =>
      match decodeEntries json data offset with
      | .error e => .error e
      | .ok entries => .ok { header, entries }


/-! ## Reading chunks -/

variable {offset : ℕ}

section

variable {data chunk bytes : List UInt8} {what : String}

/-- A chunk is read as its format reads it. -/
theorem readChunk_append (what : String) (pre post : List UInt8) (h : chunk.length < 2 ^ 32) :
    readChunk (pre ++ (chunkBytes chunk ++ post)) what pre.length
      = .ok (chunk, pre.length + (chunkBytes chunk).length) := by
  have hwrite : chunkBytes chunk = bigEndian 4 chunk.length ++ chunk := rfl
  have hlength : (chunkBytes chunk).length = 4 + chunk.length := by
    rw [hwrite, length_append, length_bigEndian]
  have hdata : (pre ++ (chunkBytes chunk ++ post)).length
      = pre.length + (4 + chunk.length + post.length) := by
    rw [length_append, length_append, hlength]
  have hnumber : ofBigEndian
      (((pre ++ (chunkBytes chunk ++ post)).drop pre.length).take 4) = chunk.length := by
    rw [drop_left, hwrite, append_assoc, take_left' (length_bigEndian 4 _), ofBigEndian_bigEndian]
    exact Nat.mod_eq_of_lt h
  have hchunk : subarray (pre ++ (chunkBytes chunk ++ post)) (pre.length + 4)
      (pre.length + 4 + chunk.length) = chunk := by
    have hfront : pre ++ (chunkBytes chunk ++ post)
        = (pre ++ bigEndian 4 chunk.length) ++ (chunk ++ post) := by
      rw [hwrite]
      simp only [append_assoc]
    have hpre : (pre ++ bigEndian 4 chunk.length).length = pre.length + 4 := by
      rw [length_append, length_bigEndian]
    rw [subarray, drop_take, hfront, ← hpre, drop_left, Nat.add_sub_cancel_left, take_left]
  unfold readChunk
  rw [if_neg (by omega)]
  unfold getUint32
  rw [if_pos (by omega), hnumber]
  dsimp only
  rw [if_neg (by omega), hchunk, hlength, Nat.add_assoc]

/-- **A chunk that is cut off** is refused. -/
theorem readChunk_cut (what : String) (pre : List UInt8) (hchunk : chunk.length < 2 ^ 32)
    (hcut : bytes <+: chunkBytes chunk) (hne : bytes ≠ chunkBytes chunk) :
    ∃ e, readChunk (pre ++ bytes) what pre.length = .error e := by
  cases hread : readChunk (pre ++ bytes) what pre.length with
  | error e => exact ⟨e, rfl⟩
  | ok p =>
    obtain ⟨-, hend, hnext, -⟩ := readChunk_spec hread
    obtain ⟨rest, hrest⟩ := hcut
    refine absurd ?_ hne
    have hwrite : chunkBytes chunk = bigEndian 4 chunk.length ++ chunk := rfl
    have hlength : (chunkBytes chunk).length = 4 + chunk.length := by
      rw [hwrite, length_append, length_bigEndian]
    have hfour : 4 ≤ bytes.length := by
      rw [length_append] at hend
      omega
    have hnumber : ofBigEndian (((pre ++ bytes).drop pre.length).take 4) = chunk.length := by
      have htake : bytes.take 4 = (chunkBytes chunk).take 4 := by
        rw [← hrest, take_append_of_le_length hfour]
      rw [drop_left, htake, hwrite, take_left' (length_bigEndian 4 _), ofBigEndian_bigEndian]
      exact Nat.mod_eq_of_lt hchunk
    have hall : bytes.length = (chunkBytes chunk).length := by
      have hle := congrArg List.length hrest
      rw [length_append] at hle hend
      rw [hnumber] at hnext
      omega
    exact (prefix_iff_eq_take.mp ⟨rest, hrest⟩).trans (by rw [hall, take_length])

/-- A read of a chunk looks at nothing behind it. -/
theorem readChunk_take {offset' : ℕ} (h : readChunk data what offset = .ok (chunk, offset')) :
    readChunk (data.take offset') what offset = .ok (chunk, offset') := by
  obtain ⟨hfour, hend, hnext, hchunk⟩ := readChunk_spec h
  have hlength : (data.take offset').length = offset' := length_take_of_le hend
  have hnumber : ((data.take offset').drop offset).take 4 = (data.drop offset).take 4 := by
    rw [drop_take, take_take, Nat.min_eq_left (by omega)]
  have hsame : subarray (data.take offset') (offset + 4) offset' = chunk := by
    rw [hchunk, subarray, subarray, take_take, Nat.min_self]
  unfold readChunk
  rw [hlength, if_neg (by omega)]
  unfold getUint32
  rw [hlength, if_pos hfour, hnumber]
  dsimp only
  rw [← hnext, if_neg (lt_irrefl _), hsame]

/-- **No read outside of the bytes.** -/
theorem readChunk_ne_rangeError (data : List UInt8) (what : String) (offset : ℕ) :
    readChunk data what offset ≠ .error .rangeError := by
  intro h
  unfold readChunk at h
  split_ifs at h with hlength
  · exact FramingError.noConfusion (Except.error.inj h)
  · unfold getUint32 at h
    rw [if_pos (not_lt.mp hlength)] at h
    dsimp only at h
    split_ifs at h
    exact FramingError.noConfusion (Except.error.inj h)

end

theorem parseChunk_jsonBytes (value : J) : parseChunk json (jsonBytes json value) = .ok value := by
  rw [parseChunk, jsonBytes, Utf8.decode_encode (json.isWellFormed value) (json.no_mark value),
    json.parse_stringify]

/-! ## Reading frames -/

def BinaryEntryFrame.Fits (entry : BinaryEntryFrame J) : Prop :=
  (jsonBytes json entry.metadata).length < 2 ^ 32 ∧ entry.payload.length < 2 ^ 32

/-- **Lengths that four bytes can say.** -/
def BinaryEntryMessage.Fits (message : BinaryEntryMessage J) : Prop :=
  (jsonBytes json message.header).length < 2 ^ 32 ∧ ∀ entry ∈ message.entries, entry.Fits json

variable {json} {entry : BinaryEntryFrame J} {entries : List (BinaryEntryFrame J)}
  {message : BinaryEntryMessage J} {data pre post bytes : List UInt8}

theorem decodeEntries_end (h : data.length ≤ offset) :
    decodeEntries json data offset = .ok [] := by
  rw [decodeEntries, if_neg (by omega)]

theorem decodeEntries_of_error {e : FramingError} (h : offset < data.length)
    (hread : readChunk data "entry metadata" offset = .error e) :
    decodeEntries json data offset = .error e := by
  rw [decodeEntries, if_pos h]
  split
  · rename_i e' heq
    exact congrArg _ (Except.error.inj (heq.symm.trans hread))
  · rename_i heq
    exact nomatch heq.symm.trans hread

theorem decodeEntries_of_metadata {middle : ℕ} {metaChunk : List UInt8} (h : offset < data.length)
    (hread : readChunk data "entry metadata" offset = .ok (metaChunk, middle)) :
    decodeEntries json data offset =
      match readChunk data "entry payload" middle with
      | .error e => .error e
      | .ok (payload, next) =>
        match parseChunk json metaChunk with
        | .error e => .error e
        | .ok metadata =>
          match decodeEntries json data next with
          | .error e => .error e
          | .ok entries => .ok ({ metadata, payload } :: entries) := by
  rw [decodeEntries, if_pos h]
  split
  · rename_i heq
    exact nomatch heq.symm.trans hread
  · rename_i heq
    obtain ⟨rfl, rfl⟩ := Prod.mk.inj (Except.ok.inj (heq.symm.trans hread))
    split
    · rename_i heq'
      rw [heq']
    · rename_i heq'
      rw [heq']

theorem decodeEntries_frame (h : entry.Fits json) :
    decodeEntries json (pre ++ (frameBytes json entry ++ post)) pre.length =
      match decodeEntries json (pre ++ (frameBytes json entry ++ post))
        (pre ++ frameBytes json entry).length with
      | .error e => .error e
      | .ok entries => .ok (entry :: entries) := by
  have hmeta := readChunk_append "entry metadata" pre (chunkBytes entry.payload ++ post) h.1
  have hpayload := readChunk_append "entry payload"
    (pre ++ chunkBytes (jsonBytes json entry.metadata)) post h.2
  have hfour : 4 ≤ (chunkBytes (jsonBytes json entry.metadata)).length := by
    change 4 ≤ (bigEndian 4 _ ++ _).length
    rw [length_append, length_bigEndian]
    exact Nat.le_add_right _ _
  rw [frameBytes]
  simp only [append_assoc, length_append] at hmeta hpayload ⊢
  rw [decodeEntries_of_metadata (by simp only [length_append]; omega) hmeta, hpayload,
    parseChunk_jsonBytes]
  simp only [Nat.add_assoc]

theorem decodeEntries_append (h : ∀ entry ∈ entries, entry.Fits json) :
    decodeEntries json (pre ++ entries.flatMap (frameBytes json)) pre.length = .ok entries := by
  induction entries generalizing pre with
  | nil =>
    refine decodeEntries_end ?_
    rw [flatMap_nil, append_nil]
  | cons entry entries ih =>
    obtain ⟨hentry, hentries⟩ := forall_mem_cons.mp h
    rw [flatMap_cons, decodeEntries_frame hentry, ← append_assoc, ih hentries]

/-- **What is read of frames that are cut off** is frames that are whole. -/
theorem decodeEntries_cut (pre : List UInt8) (h : ∀ entry ∈ entries, entry.Fits json)
    (hcut : bytes <+: entries.flatMap (frameBytes json)) :
    (∃ k ≤ entries.length, bytes = (entries.take k).flatMap (frameBytes json))
      ∨ ∃ e, decodeEntries json (pre ++ bytes) pre.length = .error e := by
  induction entries generalizing pre bytes with
  | nil => exact .inl ⟨0, le_rfl, prefix_nil.mp hcut⟩
  | cons entry entries ih =>
    obtain ⟨hentry, hentries⟩ := forall_mem_cons.mp h
    by_cases hnil : bytes = []
    · exact .inl ⟨0, Nat.zero_le _, hnil⟩
    have hinside : pre.length < (pre ++ bytes).length := by
      rw [length_append]
      exact Nat.lt_add_of_pos_right (length_pos_iff.mpr hnil)
    rw [flatMap_cons, frameBytes, append_assoc] at hcut
    -- is the metadata whole?
    by_cases hmeta : chunkBytes (jsonBytes json entry.metadata) <+: bytes
    · obtain ⟨bytes, rfl⟩ := hmeta
      have hread := readChunk_append "entry metadata" pre bytes hentry.1
      rw [prefix_append_right_inj] at hcut
      -- and the payload?
      by_cases hpayload : chunkBytes entry.payload <+: bytes
      · obtain ⟨bytes, rfl⟩ := hpayload
        rw [prefix_append_right_inj] at hcut
        rcases ih (pre ++ frameBytes json entry) hentries hcut with ⟨k, hk, rfl⟩ | ⟨e, he⟩
        · refine .inl ⟨k + 1, Nat.succ_le_succ hk, ?_⟩
          rw [take_succ_cons, flatMap_cons, frameBytes, append_assoc]
        · refine .inr ⟨e, ?_⟩
          rw [← append_assoc (chunkBytes _), ← frameBytes, decodeEntries_frame hentry,
            ← append_assoc, he]
      · have hshort : bytes <+: chunkBytes entry.payload :=
          (List.prefix_or_prefix_of_prefix hcut (prefix_append _ _)).resolve_right hpayload
        obtain ⟨e, he⟩ := readChunk_cut "entry payload"
          (pre ++ chunkBytes (jsonBytes json entry.metadata)) hentry.2 hshort
          fun heq => hpayload (heq ▸ prefix_rfl)
        rw [append_assoc, length_append] at he
        refine .inr ⟨e, ?_⟩
        rw [decodeEntries_of_metadata hinside hread, he]
    · have hshort : bytes <+: chunkBytes (jsonBytes json entry.metadata) :=
        (List.prefix_or_prefix_of_prefix hcut (prefix_append _ _)).resolve_right hmeta
      obtain ⟨e, he⟩ := readChunk_cut "entry metadata" pre hentry.1 hshort
        fun heq => hmeta (heq ▸ prefix_rfl)
      exact .inr ⟨e, decodeEntries_of_error hinside he⟩

/-! ## Messages -/

theorem decode_of_header {chunk : List UInt8} {header : J}
    (hread : readChunk data "header" 0 = .ok (chunk, offset))
    (hparse : parseChunk json chunk = .ok header) :
    decodeBinaryEntryMessage json data =
      match decodeEntries json data offset with
      | .error e => .error e
      | .ok entries => .ok { header, entries } := by
  rw [decodeBinaryEntryMessage, hread]
  dsimp only
  rw [hparse]

theorem readChunk_header (h : (jsonBytes json message.header).length < 2 ^ 32) :
    readChunk (chunkBytes (jsonBytes json message.header) ++ post) "header" 0
      = .ok (jsonBytes json message.header,
        (chunkBytes (jsonBytes json message.header)).length) := by
  have hread := readChunk_append "header" [] post h
  rw [length_nil, Nat.zero_add] at hread
  exact hread

/-- **A message is read back.** -/
theorem decode_encode (h : message.Fits json) :
    decodeBinaryEntryMessage json (encodeBinaryEntryMessage json message) = .ok message := by
  rw [encodeBinaryEntryMessage, decode_of_header (readChunk_header h.1) (parseChunk_jsonBytes _ _),
    decodeEntries_append h.2]

/-- **A message that is cut off** is refused, or is the message without its last frames. -/
theorem decode_truncated (h : message.Fits json)
    (hcut : bytes <+: encodeBinaryEntryMessage json message) :
    (∃ k ≤ message.entries.length, bytes = encodeBinaryEntryMessage json
        { message with entries := message.entries.take k })
      ∨ ∃ e, decodeBinaryEntryMessage json bytes = .error e := by
  rw [encodeBinaryEntryMessage] at hcut
  by_cases hheader : chunkBytes (jsonBytes json message.header) <+: bytes
  · obtain ⟨bytes, rfl⟩ := hheader
    rw [prefix_append_right_inj] at hcut
    rcases decodeEntries_cut (chunkBytes (jsonBytes json message.header)) h.2 hcut
      with ⟨k, hk, rfl⟩ | ⟨e, he⟩
    · exact .inl ⟨k, hk, rfl⟩
    · refine .inr ⟨e, ?_⟩
      rw [decode_of_header (readChunk_header h.1) (parseChunk_jsonBytes _ _), he]
  · have hshort : bytes <+: chunkBytes (jsonBytes json message.header) :=
      (List.prefix_or_prefix_of_prefix hcut (prefix_append _ _)).resolve_right hheader
    obtain ⟨e, he⟩ := readChunk_cut "header" [] h.1 hshort fun heq => hheader (heq ▸ prefix_rfl)
    refine .inr ⟨e, ?_⟩
    rw [nil_append, length_nil] at he
    rw [decodeBinaryEntryMessage, he]

/-- What is read of a message may be its header alone. -/
theorem decode_take_header {chunk : List UInt8}
    (hread : readChunk data "header" 0 = .ok (chunk, offset))
    (h : decodeBinaryEntryMessage json data = .ok message) :
    decodeBinaryEntryMessage json (data.take offset) = .ok { message with entries := [] } := by
  obtain ⟨-, hend, -⟩ := readChunk_spec hread
  cases hparse : parseChunk json chunk with
  | error e =>
    rw [decodeBinaryEntryMessage, hread] at h
    dsimp only at h
    rw [hparse] at h
    exact nomatch h
  | ok header =>
    rw [decode_of_header hread hparse] at h
    rw [decode_of_header (readChunk_take hread) hparse,
      decodeEntries_end (length_take_of_le hend).le]
    cases hentries : decodeEntries json data offset with
    | error e =>
      rw [hentries] at h
      exact nomatch h
    | ok entries =>
      rw [hentries] at h
      rw [← Except.ok.inj h]

theorem length_chunkBytes (chunk : List UInt8) : (chunkBytes chunk).length = 4 + chunk.length := by
  change (bigEndian 4 _ ++ _).length = _
  rw [length_append, length_bigEndian]
  rfl

/-- **The measured size** is that of the body. -/
theorem measure_eq (message : BinaryEntryMessage J) :
    measureBinaryEntryMessage json message.header message.entries
      = (encodeBinaryEntryMessage json message).length := by
  obtain ⟨header, entries⟩ := message
  rw [encodeBinaryEntryMessage, length_append, length_chunkBytes, measureBinaryEntryMessage]
  generalize 4 + (jsonBytes json header).length = total
  dsimp only
  induction entries generalizing total with
  | nil => rfl
  | cons entry entries ih =>
    rw [foldl_cons, ih, flatMap_cons, length_append, frameBytes, length_append,
      length_chunkBytes, length_chunkBytes]
    omega

/-- An error that is passed on. -/
theorem passed_ne_rangeError {α β : Type} {x : Except FramingError α} {e : FramingError}
    (hx : x ≠ .error .rangeError) (h : x = .error e) :
    (.error e : Except FramingError β) ≠ .error .rangeError := fun heq =>
  hx (h.trans (congrArg _ (Except.error.inj heq)))

theorem parseChunk_ne_rangeError (chunk : List UInt8) :
    parseChunk json chunk ≠ .error .rangeError := by
  rw [parseChunk]
  split
  · exact nofun
  · exact fun h => FramingError.noConfusion (Except.error.inj h)

theorem decodeEntries_ne_rangeError (data : List UInt8) (offset : ℕ) :
    decodeEntries json data offset ≠ .error .rangeError := by
  fun_induction decodeEntries json data offset with
  | case1 offset hlt e hread =>
    exact passed_ne_rangeError (readChunk_ne_rangeError data _ offset) hread
  | case2 offset hlt metaChunk middle hread e hpayload =>
    exact passed_ne_rangeError (readChunk_ne_rangeError data _ middle) hpayload
  | case3 offset hlt metaChunk middle hread payload next hpayload e hparse =>
    exact passed_ne_rangeError (parseChunk_ne_rangeError metaChunk) hparse
  | case4 offset hlt metaChunk middle hread payload next hpayload metadata hparse e hrest ih =>
    exact passed_ne_rangeError ih hrest
  | case5 => exact nofun
  | case6 => exact nofun

theorem decode_ne_rangeError (data : List UInt8) :
    decodeBinaryEntryMessage json data ≠ .error .rangeError := by
  rw [decodeBinaryEntryMessage]
  split
  · rename_i e hread
    exact passed_ne_rangeError (readChunk_ne_rangeError data _ 0) hread
  · rename_i headerChunk offset hread
    split
    · rename_i e hparse
      exact passed_ne_rangeError (parseChunk_ne_rangeError headerChunk) hparse
    · split
      · rename_i e hentries
        exact passed_ne_rangeError (decodeEntries_ne_rangeError data offset) hentries
      · exact nofun

/-! ## Damage -/

variable (json message) in
/-- **Framing that detects damage** to a message. -/
def DetectsDamage : Prop :=
  decodeBinaryEntryMessage json (encodeBinaryEntryMessage json message) = .ok message
    ∧ measureBinaryEntryMessage json message.header message.entries
        = (encodeBinaryEntryMessage json message).length
    ∧ (∀ data, decodeBinaryEntryMessage json data ≠ .error .rangeError)
    ∧ ∀ cut < (encodeBinaryEntryMessage json message).length,
        ∃ e, decodeBinaryEntryMessage json ((encodeBinaryEntryMessage json message).take cut)
          = .error e

/-- The header is read to the end of the message. -/
theorem DetectsDamage.entries_eq_nil (h : DetectsDamage json message) :
    message.entries = [] ∧ (jsonBytes json message.header).length < 2 ^ 32 := by
  obtain ⟨hdecode, -, -, hcut⟩ := h
  generalize hdata : encodeBinaryEntryMessage json message = data at hdecode hcut
  cases hread : readChunk data "header" 0 with
  | error e =>
    rw [decodeBinaryEntryMessage, hread] at hdecode
    exact nomatch hdecode
  | ok p =>
    obtain ⟨chunk, offset⟩ := p
    obtain ⟨-, hend, hoffset, -⟩ := readChunk_spec hread
    have hall : data.length ≤ offset := by
      by_contra hlt
      obtain ⟨e, he⟩ := hcut offset (not_le.mp hlt)
      exact nomatch he.symm.trans (decode_take_header hread hdecode)
    have hnumber : ofBigEndian ((data.drop 0).take 4)
        = (jsonBytes json message.header).length % 2 ^ 32 := by
      rw [drop_zero, ← hdata, encodeBinaryEntryMessage]
      change ofBigEndian (((bigEndian 4 _ ++ _) ++ _).take 4) = _
      rw [append_assoc, take_left' (length_bigEndian 4 _), ofBigEndian_bigEndian]
      rfl
    have hlength : data.length = 4 + (jsonBytes json message.header).length
        + (message.entries.flatMap (frameBytes json)).length := by
      rw [← hdata, encodeBinaryEntryMessage, length_append, length_chunkBytes]
    have hmod := Nat.mod_le (jsonBytes json message.header).length (2 ^ 32)
    have hlt := Nat.mod_lt (jsonBytes json message.header).length (Nat.two_pow_pos 32)
    refine ⟨?_, by omega⟩
    cases hentries : message.entries with
    | nil => rfl
    | cons entry entries =>
      rw [hentries, flatMap_cons, length_append, frameBytes, length_append,
        length_chunkBytes] at hlength
      omega

/-- **Damage is detected** just in messages without entries. -/
theorem detectsDamage_iff (json : JsonLanguage J) (message : BinaryEntryMessage J) :
    DetectsDamage json message ↔
      message.entries = [] ∧ (jsonBytes json message.header).length < 2 ^ 32 := by
  refine ⟨DetectsDamage.entries_eq_nil, fun ⟨hnil, hheader⟩ => ?_⟩
  have hfits : message.Fits json := by
    refine ⟨hheader, ?_⟩
    rw [hnil]
    exact fun _ hmem => absurd hmem not_mem_nil
  refine ⟨decode_encode hfits, measure_eq message, decode_ne_rangeError, fun cut hcut => ?_⟩
  refine (decode_truncated hfits (List.take_prefix cut _)).resolve_left ?_
  rintro ⟨k, -, hk⟩
  have hwhole : { message with entries := message.entries.take k } = message := by
    rw [hnil, take_nil, ← hnil]
  rw [hwhole] at hk
  have hshort := congrArg List.length hk
  rw [length_take] at hshort
  omega

/-- What a JSON text begins with. -/
theorem no_mark_stringify (value : JsonTree) :
    value.stringify.units.head? ≠ some 0xFEFF := by
  cases value with
  | null | string | array | object => exact fun h => nomatch Option.some.inj h
  | bool b => cases b <;> exact fun h => nomatch Option.some.inj h
  | integer n =>
    obtain ⟨unit, units, heq, hunit⟩ := JsonTree.head_integer n
    change (JsonText.integer n).units.head? ≠ _
    rw [heq, head?_cons]
    rintro ⟨rfl⟩
    exact nomatch hunit

/-- JSON values without fractions. -/
def integerJson : JsonLanguage JsonTree where
  stringify := JsonTree.stringify
  parse := JsonTree.parse
  parse_stringify := JsonTree.parse_stringify
  isWellFormed := JsonTree.isWellFormed_stringify
  no_mark := no_mark_stringify

/-- A `putEntries` body with one entry. -/
def oneEntry : BinaryEntryMessage JsonTree where
  header := .object [("format", .string "mdb-put-v2")]
  entries := [⟨.object [("id", .string "a")], [7]⟩]

/-- Cut behind its header, it is a body without entries. -/
theorem not_detectsDamage_oneEntry : ¬ DetectsDamage integerJson oneEntry := fun h =>
  absurd h.entries_eq_nil.1 (cons_ne_nil _ _)

end MindooDB.BinaryFraming
