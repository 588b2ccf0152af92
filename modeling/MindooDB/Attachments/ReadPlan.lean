import MindooDB.Lib.Doubles
import MindooDB.Server.Entry

/-!
# Attachments/ReadPlan — which chunks a byte range needs

`core/appendonlystores/AttachmentReadPlanner.ts`.  The chunks of an attachment are a list linked from
the newest to the oldest; the walk starts at the end of the file and takes the sizes off it, one
chunk at a time, until it is below the range.

Sizes are whole numbers, and a difference is rounded to a double, so that a walk need not go down
where the sizes are beyond `2 ^ 53` (`not_planAttachmentReadByWalkingMetadata_ends`).  Up to there,
on a list whose sizes sum up, the plan is the chunks that overlap the range, and their plaintexts
hold the range at the offset of the plan; and on any metadata at all the walk ends
(`planAttachmentReadByWalkingMetadata_spec`).
-/

namespace MindooDB

open List Option

structure AttachmentReadPlanOptions where
  startByte : ℤ
  endByteExclusive : Option ℤ := none

structure NormalizedAttachmentReadRange where
  startByte : ℤ
  endByteExclusive : ℤ
  deriving DecidableEq

structure AttachmentReadPlanChunk where
  id : JSString
  startByte : ℤ
  endByteExclusive : ℤ
  originalSize : ℤ
  deriving DecidableEq

structure AttachmentReadPlan where
  attachmentSize : ℤ
  startByte : ℤ
  endByteExclusive : ℤ
  chunkPlans : List AttachmentReadPlanChunk
  offsetInFirstChunk : ℤ
  deriving DecidableEq

/-- A whole number in a message. -/
def numberText (n : ℤ) : JSString :=
  if n < 0 then "-" ++ JSString.ofNat n.natAbs else JSString.ofNat n.natAbs

/-- A range within the file, or an error. -/
def normalizeAttachmentReadRange (attachmentSize : ℤ) (options : AttachmentReadPlanOptions) :
    Except JSString NormalizedAttachmentReadRange :=
  let endByteExclusive := options.endByteExclusive.getD attachmentSize
  if options.startByte < 0 ∨ endByteExclusive < options.startByte then
    .error ("Invalid byte range: [" ++ numberText options.startByte ++ ", "
      ++ numberText endByteExclusive ++ ")")
  else if endByteExclusive > attachmentSize then
    .error ("End byte " ++ numberText endByteExclusive ++ " exceeds attachment size "
      ++ numberText attachmentSize)
  else .ok ⟨options.startByte, endByteExclusive⟩

/-- A chunk of some size with one dependency at most. -/
def validateAttachmentChunkMetadata (metadata : Option SyncEntryMetadata) (id : JSString) :
    Except JSString SyncEntryMetadata :=
  match metadata with
  | none => .error ("Attachment chunk " ++ id ++ " not found in store. "
      ++ "The document metadata exists, but the attachment payload may not be synced locally yet.")
  | some metadata =>
    if metadata.entryType ≠ .attachmentChunk then
      .error ("Entry " ++ id ++ " is not an attachment chunk")
    else if metadata.dependencyIds.length > 1 then
      .error ("Attachment chunk " ++ id ++ " has unexpected dependency fanout")
    else if metadata.originalSize ≤ 0 then
      .error ("Attachment chunk " ++ id ++ " has invalid originalSize "
        ++ numberText metadata.originalSize)
    else .ok metadata

/-- The plan of the chunks that were found. -/
def finalizeAttachmentReadPlan (attachmentSize : ℤ) (range : NormalizedAttachmentReadRange)
    (chunkPlans : List AttachmentReadPlanChunk) : Except JSString AttachmentReadPlan :=
  if range.startByte = range.endByteExclusive then
    .ok ⟨attachmentSize, range.startByte, range.endByteExclusive, [], 0⟩
  else
    match chunkPlans with
    | [] => .error ("Attachment chunk plan for range ["
        ++ numberText range.startByte ++ ", " ++ numberText range.endByteExclusive ++ ") produced no chunks")
    | first :: _ => .ok ⟨attachmentSize, range.startByte, range.endByteExclusive, chunkPlans,
        Doubles.nearest (range.startByte - first.startByte)⟩

/-- The variables of the loop. -/
structure ChunkWalk where
  currentId : Option JSString
  currentChunkEnd : ℤ
  reverseChunkPlans : List AttachmentReadPlanChunk := []
  deriving DecidableEq

section Walk

variable (getEntryMetadata : JSString → Option SyncEntryMetadata) (attachmentSize : ℤ)
  (range : NormalizedAttachmentReadRange)

/-- The loop body. -/
def walkChunk (w : ChunkWalk) (currentId : JSString) : Except JSString ChunkWalk := do
  let metadata ← validateAttachmentChunkMetadata (getEntryMetadata currentId) currentId
  let currentChunkStart := Doubles.nearest (w.currentChunkEnd - metadata.originalSize)
  if currentChunkStart < 0 then
    .error ("Attachment chunk " ++ currentId ++ " exceeds declared attachment size "
      ++ numberText attachmentSize)
  else
    .ok
      { currentId := metadata.dependencyIds.head?
        currentChunkEnd := currentChunkStart
        reverseChunkPlans :=
          if w.currentChunkEnd > range.startByte ∧ currentChunkStart < range.endByteExclusive then
            w.reverseChunkPlans
              ++ [⟨currentId, currentChunkStart, w.currentChunkEnd, metadata.originalSize⟩]
          else w.reverseChunkPlans }

/-- `while (currentId && currentChunkEnd > range.startByte)`; `none` when the fuel ran out. -/
def walkChunks : ℕ → ChunkWalk → Option (Except JSString ChunkWalk)
  | fuel, w =>
    match w.currentId.filter fun id => !id.isEmpty with
    | none => some (.ok w)
    | some currentId =>
      if w.currentChunkEnd > range.startByte then
        match fuel with
        | 0 => none
        | fuel + 1 =>
          match walkChunk getEntryMetadata attachmentSize range w currentId with
          | .error message => some (.error message)
          | .ok w => walkChunks fuel w
      else some (.ok w)

/-- What follows the loop. -/
def finishWalk (w : ChunkWalk) : Except JSString AttachmentReadPlan :=
  if (w.currentId.filter fun id => !id.isEmpty) = none ∧ w.currentChunkEnd > range.startByte then
    .error ("Attachment chunk chain ended before covering declared attachment size "
      ++ numberText attachmentSize)
  else finalizeAttachmentReadPlan attachmentSize range w.reverseChunkPlans.reverse

/-- The plan or the error, of a walk of at most `fuel` rounds. -/
def planAttachmentReadByWalkingMetadata (fuel : ℕ) (lastChunkId : JSString)
    (options : AttachmentReadPlanOptions) : Option (Except JSString AttachmentReadPlan) :=
  match normalizeAttachmentReadRange attachmentSize options with
  | .error message => some (.error message)
  | .ok range =>
    if range.startByte = range.endByteExclusive ∨ attachmentSize = 0 then
      some (finalizeAttachmentReadPlan attachmentSize range [])
    else
      (walkChunks getEntryMetadata attachmentSize range fuel
        { currentId := some lastChunkId, currentChunkEnd := attachmentSize }).map fun walked =>
          walked.bind (finishWalk attachmentSize range)

end Walk

/-! ## The walk ends -/

section Ends

variable {getEntryMetadata : JSString → Option SyncEntryMetadata} {attachmentSize : ℤ}
  {range : NormalizedAttachmentReadRange}

/-- What a range that was accepted says. -/
theorem normalizeAttachmentReadRange_ok {options : AttachmentReadPlanOptions}
    (h : normalizeAttachmentReadRange attachmentSize options = .ok range) :
    range = ⟨options.startByte, options.endByteExclusive.getD attachmentSize⟩ ∧
      0 ≤ range.startByte ∧ range.startByte ≤ range.endByteExclusive ∧
      range.endByteExclusive ≤ attachmentSize := by
  simp only [normalizeAttachmentReadRange] at h
  split at h
  · cases h
  · split at h
    · cases h
    · obtain rfl := Except.ok.inj h
      refine ⟨rfl, ?_, ?_, ?_⟩ <;> simp only <;> omega

/-- What a chunk that was accepted says. -/
theorem validateAttachmentChunkMetadata_ok {stored : Option SyncEntryMetadata} {id : JSString}
    {metadata : SyncEntryMetadata} (h : validateAttachmentChunkMetadata stored id = .ok metadata) :
    stored = some metadata ∧ metadata.entryType = .attachmentChunk ∧
      metadata.dependencyIds.length ≤ 1 ∧ 0 < metadata.originalSize := by
  cases stored with
  | none => cases h
  | some stored =>
    simp only [validateAttachmentChunkMetadata] at h
    split at h
    · cases h
    split at h
    · cases h
    split at h
    · cases h
    · obtain rfl := Except.ok.inj h
      exact ⟨rfl, by simpa using ‹¬ _ ≠ _›, by omega, by omega⟩

/-- **A round of the loop goes down in the file**, and stays in it. -/
theorem walkChunk_ok {w w' : ChunkWalk} {currentId : JSString} (hdouble : w.currentChunkEnd ≤ 2 ^ 53)
    (h : walkChunk getEntryMetadata attachmentSize range w currentId = .ok w') :
    0 ≤ w'.currentChunkEnd ∧ w'.currentChunkEnd < w.currentChunkEnd := by
  cases hvalid : validateAttachmentChunkMetadata (getEntryMetadata currentId) currentId with
  | error message =>
    rw [walkChunk, hvalid] at h
    cases h
  | ok metadata =>
    have hsize := (validateAttachmentChunkMetadata_ok hvalid).2.2.2
    rw [walkChunk, hvalid] at h
    simp only [bind, Except.bind] at h
    split at h
    · cases h
    · rename_i hnonneg
      obtain rfl := Except.ok.inj h
      have hexact := Doubles.nonneg_of_nearest_nonneg (not_lt.mp hnonneg)
      simp only
      rw [Doubles.nearest_of_le (by omega)]
      omega

theorem isSome_walkChunks (hstart : 0 ≤ range.startByte) {fuel : ℕ} {w : ChunkWalk}
    (hdouble : w.currentChunkEnd ≤ 2 ^ 53) (hfuel : w.currentChunkEnd ≤ fuel) :
    (walkChunks getEntryMetadata attachmentSize range fuel w).isSome = true := by
  induction fuel generalizing w with
  | zero =>
    rw [walkChunks]
    split
    · rfl
    · rw [if_neg (by omega)]
      rfl
  | succ fuel ih =>
    rw [walkChunks]
    split
    · rfl
    · split
      · rename_i currentId _ _
        cases hround : walkChunk getEntryMetadata attachmentSize range w currentId with
        | error message => rfl
        | ok w' =>
          have hdown := walkChunk_ok hdouble hround
          exact ih (by omega) (by omega)
      · rfl

/-- **On any metadata the planner comes to a plan or to an error.** -/
theorem isSome_planAttachmentReadByWalkingMetadata (hdouble : attachmentSize ≤ 2 ^ 53) {fuel : ℕ}
    (hfuel : attachmentSize ≤ fuel) (lastChunkId : JSString) (options : AttachmentReadPlanOptions) :
    (planAttachmentReadByWalkingMetadata getEntryMetadata attachmentSize fuel lastChunkId
      options).isSome = true := by
  rw [planAttachmentReadByWalkingMetadata]
  cases hrange : normalizeAttachmentReadRange attachmentSize options with
  | error message => rfl
  | ok range =>
    obtain ⟨-, hstart, -, -⟩ := normalizeAttachmentReadRange_ok hrange
    simp only
    split
    · rfl
    · rw [isSome_map]
      exact isSome_walkChunks hstart hdouble hfuel

end Ends

/-! ## Files

The chunks of a file come newest first, as the walk meets them. -/

/-- The id of a chunk and what a store knows of it. -/
abbrev StoredChunk := JSString × SyncEntryMetadata

/-- **A chain of chunks**: each is in the store under its id, has a size, and names the next one, if
there is one. -/
def IsChunkChain (getEntryMetadata : JSString → Option SyncEntryMetadata) :
    List StoredChunk → Prop
  | [] => True
  | (id, metadata) :: older =>
    (id.isEmpty = false ∧ getEntryMetadata id = some metadata ∧
      metadata.entryType = .attachmentChunk ∧ 0 < metadata.originalSize ∧
      metadata.dependencyIds = (older.head?.map Prod.fst).toList) ∧
    IsChunkChain getEntryMetadata older

/-- The bytes of the chunks together. -/
def chainSize (chunks : List StoredChunk) : ℤ := (chunks.map fun c => c.2.originalSize).sum

/-- **Where every chunk lies in the file**, in file order. -/
def chunkLayout : List StoredChunk → List AttachmentReadPlanChunk
  | [] => []
  | (id, metadata) :: older =>
    chunkLayout older ++
      [⟨id, chainSize older, chainSize older + metadata.originalSize, metadata.originalSize⟩]

/-- A byte is in the range and in the chunk. -/
def NormalizedAttachmentReadRange.overlaps (range : NormalizedAttachmentReadRange)
    (chunk : AttachmentReadPlanChunk) : Bool :=
  max range.startByte chunk.startByte < min range.endByteExclusive chunk.endByteExclusive

/-- The plaintexts of the chunks of a plan, one after the other. -/
def plaintextOf (plaintext : JSString → List UInt8) (chunkPlans : List AttachmentReadPlanChunk) :
    List UInt8 := chunkPlans.flatMap fun chunk => plaintext chunk.id

theorem overlaps_iff {range : NormalizedAttachmentReadRange} {chunk : AttachmentReadPlanChunk} :
    range.overlaps chunk = true ↔ ∃ byte : ℤ, (range.startByte ≤ byte ∧ byte < range.endByteExclusive)
      ∧ chunk.startByte ≤ byte ∧ byte < chunk.endByteExclusive := by
  rw [NormalizedAttachmentReadRange.overlaps, decide_eq_true_eq]
  constructor
  · intro h
    exact ⟨max range.startByte chunk.startByte, ⟨by omega, by omega⟩, by omega, by omega⟩
  · rintro ⟨byte, ⟨hstart, hend⟩, hfrom, hto⟩
    omega

section Chain

variable {getEntryMetadata : JSString → Option SyncEntryMetadata} {chunks : List StoredChunk}
  {range : NormalizedAttachmentReadRange} {plaintext : JSString → List UInt8}

theorem chainSize_cons (c : StoredChunk) (older : List StoredChunk) :
    chainSize (c :: older) = c.2.originalSize + chainSize older := by
  rw [chainSize, map_cons, sum_cons, chainSize]

section

variable (h : IsChunkChain getEntryMetadata chunks)

include h

theorem IsChunkChain.chainSize_nonneg :
    0 ≤ chainSize chunks := by
  induction chunks with
  | nil => exact le_rfl
  | cons c older ih =>
    rw [chainSize_cons]
    have hpos : 0 < c.2.originalSize := h.1.2.2.2.1
    have hrest := ih h.2
    omega

/-- Every chunk of the file lies in it. -/
theorem endByteExclusive_le_chainSize {chunk : AttachmentReadPlanChunk}
    (hchunk : chunk ∈ chunkLayout chunks) :
    chunk.endByteExclusive ≤ chainSize chunks := by
  induction chunks with
  | nil => exact nomatch hchunk
  | cons c older ih =>
    have hpos : 0 < c.2.originalSize := h.1.2.2.2.1
    rw [chainSize_cons]
    rcases mem_append.mp hchunk with hold | hnew
    · have hrest := ih h.2 hold
      omega
    · rw [mem_singleton.mp hnew, Int.add_comm]

/-- A range past the end of the file overlaps none of its chunks. -/
theorem filter_overlaps_eq_nil (hpast : chainSize chunks ≤ range.startByte) :
    (chunkLayout chunks).filter range.overlaps = [] := by
  refine filter_eq_nil_iff.mpr fun chunk hchunk hoverlaps => ?_
  obtain ⟨byte, ⟨hstart, -⟩, -, hend⟩ := overlaps_iff.mp hoverlaps
  have hwithin := endByteExclusive_le_chainSize h hchunk
  omega

end

/-- The chunks in the range, with one more at the end of the file. -/
theorem filter_overlaps_cons (c : StoredChunk) (older : List StoredChunk) :
    (chunkLayout (c :: older)).filter range.overlaps
      = (chunkLayout older).filter range.overlaps
        ++ [⟨c.1, chainSize older, chainSize older + c.2.originalSize, c.2.originalSize⟩].filter
          range.overlaps := by
  rw [← filter_append]
  rfl

/-- Above the start of the range, the range and a chunk overlap when the chunk starts before its
end. -/
theorem overlaps_eq_decide (chunk : AttachmentReadPlanChunk)
    (hrange : range.startByte < range.endByteExclusive) (hchunk : chunk.startByte < chunk.endByteExclusive)
    (habove : chunk.endByteExclusive > range.startByte) :
    range.overlaps chunk = decide (chunk.startByte < range.endByteExclusive) := by
  rw [NormalizedAttachmentReadRange.overlaps, decide_eq_decide]
  omega

/-- A round of the loop on a chunk of the chain. -/
theorem walkChunk_chain {c : StoredChunk} {older : List StoredChunk}
    (h : IsChunkChain getEntryMetadata (c :: older)) (hdouble : chainSize (c :: older) ≤ 2 ^ 53)
    (attachmentSize : ℤ) (hrange : range.startByte < range.endByteExclusive)
    (habove : chainSize (c :: older) > range.startByte) (currentId : Option JSString)
    (plans : List AttachmentReadPlanChunk) :
    walkChunk getEntryMetadata attachmentSize range ⟨currentId, chainSize (c :: older), plans⟩ c.1
      = .ok ⟨older.head?.map Prod.fst, chainSize older,
        plans ++ [⟨c.1, chainSize older, chainSize older + c.2.originalSize,
          c.2.originalSize⟩].filter range.overlaps⟩ := by
  obtain ⟨⟨-, hget, htype, hpos, hdeps⟩, hold⟩ := h
  have holder := IsChunkChain.chainSize_nonneg hold
  have hend : chainSize (c :: older) = chainSize older + c.2.originalSize := by
    rw [chainSize_cons, Int.add_comm]
  have hvalid : validateAttachmentChunkMetadata (getEntryMetadata c.1) c.1 = .ok c.2 := by
    have hlength : ¬ c.2.dependencyIds.length > 1 := by
      rw [hdeps]
      cases older <;> simp
    simp only [hget, validateAttachmentChunkMetadata, htype, ne_eq, not_true_eq_false, if_false,
      hlength, not_le.mpr hpos]
  have hnext : c.2.dependencyIds.head? = older.head?.map Prod.fst := by
    rw [hdeps]
    cases older <;> rfl
  have hstart : Doubles.nearest (chainSize older + c.2.originalSize - c.2.originalSize)
      = chainSize older := by
    rw [Int.add_sub_cancel]
    exact Doubles.nearest_of_le (by omega)
  have hoverlaps := overlaps_eq_decide
    ⟨c.1, chainSize older, chainSize older + c.2.originalSize, c.2.originalSize⟩ hrange
    (by simp only; omega) (by simp only; omega)
  rw [hend] at habove
  rw [walkChunk, hvalid]
  simp only [bind, Except.bind, hend, hstart, not_lt.mpr holder, if_false, hnext, habove, true_and,
    filter_cons, filter_nil, hoverlaps, decide_eq_true_eq]
  by_cases hin : chainSize older < range.endByteExclusive
  · rw [if_pos hin, if_pos hin]
  · rw [if_neg hin, if_neg hin, append_nil]

/-- **What the walk collects** from the end of the file. -/
theorem walkChunks_chain (h : IsChunkChain getEntryMetadata chunks)
    (hdouble : chainSize chunks ≤ 2 ^ 53) (attachmentSize : ℤ) (range : NormalizedAttachmentReadRange)
    (hrange : 0 ≤ range.startByte ∧ range.startByte < range.endByteExclusive) {fuel : ℕ}
    (hfuel : chainSize chunks ≤ fuel) (plans : List AttachmentReadPlanChunk) :
    ∃ w, walkChunks getEntryMetadata attachmentSize range fuel
        ⟨chunks.head?.map Prod.fst, chainSize chunks, plans⟩ = some (.ok w) ∧
      w.currentChunkEnd ≤ range.startByte ∧
      w.reverseChunkPlans = plans ++ ((chunkLayout chunks).filter range.overlaps).reverse := by
  induction chunks generalizing fuel plans with
  | nil =>
    refine ⟨⟨none, 0, plans⟩, ?_, hrange.1, by simp [chunkLayout]⟩
    cases fuel <;> rfl
  | cons c older ih =>
    have holder := IsChunkChain.chainSize_nonneg h.2
    have hpos : 0 < c.2.originalSize := h.1.2.2.2.1
    have hsize := chainSize_cons c older
    have hsome : ((List.head? (c :: older)).map Prod.fst).filter (fun id => !id.isEmpty)
        = some c.1 := by
      simp [h.1.1]
    by_cases hmore : chainSize (c :: older) > range.startByte
    · obtain ⟨fuel, rfl⟩ : ∃ n, fuel = n + 1 := Nat.exists_eq_succ_of_ne_zero (by omega)
      obtain ⟨w, hwalk, hend, hplans⟩ := ih h.2 (by omega) (show chainSize older ≤ fuel by omega) (plans ++
        [⟨c.1, chainSize older, chainSize older + c.2.originalSize, c.2.originalSize⟩].filter
          range.overlaps)
      refine ⟨w, ?_, hend, ?_⟩
      · rw [walkChunks, hsome]
        simp only [hmore, if_true, walkChunk_chain h hdouble attachmentSize hrange.2 hmore]
        exact hwalk
      · have hone : ∀ chunk : AttachmentReadPlanChunk, ([chunk].filter range.overlaps).reverse
            = [chunk].filter range.overlaps := fun chunk => by
          rw [filter_singleton]
          cases range.overlaps chunk <;> rfl
        rw [hplans, filter_overlaps_cons, reverse_append, hone, append_assoc]
    · refine ⟨⟨(List.head? (c :: older)).map Prod.fst, chainSize (c :: older), plans⟩, ?_,
        not_lt.mp hmore, ?_⟩
      · rw [walkChunks, hsome]
        simp only [hmore, if_false]
      · rw [filter_overlaps_eq_nil h (not_lt.mp hmore), reverse_nil, append_nil]

/-! ## The slice -/

/-- **Chunks that follow each other in the file.** -/
def Contiguous (chunkPlans : List AttachmentReadPlanChunk) : Prop :=
  chunkPlans.IsChain fun chunk next => chunk.endByteExclusive = next.startByte

/-- The plaintext of a file is that of its chunks in file order. -/
def fileOf (plaintext : JSString → List UInt8) (chunks : List StoredChunk) : List UInt8 :=
  plaintextOf plaintext (chunkLayout chunks)

theorem plaintextOf_append (l l' : List AttachmentReadPlanChunk) :
    plaintextOf plaintext (l ++ l') = plaintextOf plaintext l ++ plaintextOf plaintext l' :=
  flatMap_append

theorem fileOf_cons (c : StoredChunk) (older : List StoredChunk) :
    fileOf plaintext (c :: older) = fileOf plaintext older ++ plaintext c.1 := by
  rw [fileOf, fileOf, chunkLayout, plaintextOf_append]
  exact congrArg (_ ++ ·) (flatMap_singleton _ _)

theorem length_fileOf (hsizes : ∀ c ∈ chunks, ((plaintext c.1).length : ℤ) = c.2.originalSize) :
    ((fileOf plaintext chunks).length : ℤ) = chainSize chunks := by
  induction chunks with
  | nil => rfl
  | cons c older ih =>
    have hrest := ih fun c hc => hsizes c (mem_cons_of_mem _ hc)
    have hnew := hsizes c mem_cons_self
    rw [fileOf_cons, chainSize_cons, length_append]
    omega

section

variable (h : IsChunkChain getEntryMetadata chunks)

include h

/-- The chunks in the range are followed by what lies past it only. -/
theorem contiguous_filter_overlaps (hrange : range.startByte < range.endByteExclusive) :
    Contiguous ((chunkLayout chunks).filter range.overlaps) ∧
      ∀ last ∈ ((chunkLayout chunks).filter range.overlaps).getLast?,
        chainSize chunks < range.endByteExclusive → last.endByteExclusive = chainSize chunks := by
  induction chunks with
  | nil => exact ⟨.nil, by simp [chunkLayout]⟩
  | cons c older ih =>
    obtain ⟨hchain, hlast⟩ := ih h.2
    have hpos : 0 < c.2.originalSize := h.1.2.2.2.1
    have hsize := chainSize_cons c older
    rw [filter_overlaps_cons, filter_singleton]
    cases hin : range.overlaps
        ⟨c.1, chainSize older, chainSize older + c.2.originalSize, c.2.originalSize⟩ with
    | true =>
      rw [NormalizedAttachmentReadRange.overlaps, decide_eq_true_eq] at hin
      simp only at hin
      refine ⟨isChain_append.mpr ⟨hchain, isChain_singleton _, fun last hl next hn => ?_⟩,
        fun last hl _ => ?_⟩
      · obtain rfl := mem_some.mp hn
        exact hlast last hl (by omega)
      · rw [cond_true, getLast?_append, getLast?_singleton, some_or] at hl
        obtain rfl := mem_some.mp hl
        simp only
        omega
    | false =>
      rw [NormalizedAttachmentReadRange.overlaps, decide_eq_false_iff_not] at hin
      simp only at hin
      rw [cond_false, append_nil]
      refine ⟨hchain, fun last hl hend => ?_⟩
      -- the range is past the end of the file, so nothing is collected
      rw [filter_overlaps_eq_nil h.2 (by omega)] at hl
      simp at hl

/-- **The chunks in the range cover it**, from where the first one starts. -/
theorem exists_fileOf_eq (hsizes : ∀ c ∈ chunks, ((plaintext c.1).length : ℤ) = c.2.originalSize)
    (hrange : 0 ≤ range.startByte ∧ range.startByte < range.endByteExclusive) :
    ∃ before after, fileOf plaintext chunks = before
        ++ plaintextOf plaintext ((chunkLayout chunks).filter range.overlaps) ++ after ∧
      (before.length : ℤ) ≤ range.startByte ∧
      (∀ first ∈ ((chunkLayout chunks).filter range.overlaps).head?,
        first.startByte = before.length) ∧
      min range.endByteExclusive (chainSize chunks) ≤ before.length
        + (plaintextOf plaintext ((chunkLayout chunks).filter range.overlaps)).length := by
  induction chunks with
  | nil => exact ⟨[], [], rfl, hrange.1, by simp [chunkLayout], by simp [chainSize]⟩
  | cons c older ih =>
    have hsizes' : ∀ c ∈ older, ((plaintext c.1).length : ℤ) = c.2.originalSize := fun c hc =>
      hsizes c (mem_cons_of_mem _ hc)
    obtain ⟨before, after, hfile, hbefore, hfirst, hcovers⟩ := ih h.2 hsizes'
    have hpos : 0 < c.2.originalSize := h.1.2.2.2.1
    have hsize := chainSize_cons c older
    have hlength := length_fileOf hsizes'
    have hnew := hsizes c mem_cons_self
    rw [hfile, length_append, length_append] at hlength
    rw [filter_overlaps_cons, filter_singleton, fileOf_cons]
    cases hin : range.overlaps
        ⟨c.1, chainSize older, chainSize older + c.2.originalSize, c.2.originalSize⟩ with
    | true =>
      rw [NormalizedAttachmentReadRange.overlaps, decide_eq_true_eq] at hin
      simp only at hin
      obtain rfl : after = [] := length_eq_zero_iff.mp (by omega)
      rw [cond_true, plaintextOf_append]
      have hsingle : plaintextOf plaintext
          [⟨c.1, chainSize older, chainSize older + c.2.originalSize, c.2.originalSize⟩]
          = plaintext c.1 := flatMap_singleton _ _
      rw [hsingle]
      refine ⟨before, [], by rw [hfile]; simp, hbefore, fun first hf => ?_, ?_⟩
      · cases hnone : (chunkLayout older).filter range.overlaps with
        | nil =>
          rw [hnone] at hf hlength
          obtain rfl := mem_some.mp hf
          simpa [plaintextOf] using hlength.symm
        | cons d rest =>
          rw [hnone] at hf hfirst
          exact hfirst first hf
      · rw [length_append]
        simp only [length_nil] at hlength
        omega
    | false =>
      rw [NormalizedAttachmentReadRange.overlaps, decide_eq_false_iff_not] at hin
      simp only at hin
      rw [cond_false, append_nil]
      by_cases hpast : range.endByteExclusive ≤ chainSize older
      · exact ⟨before, after ++ plaintext c.1, by rw [hfile]; simp, hbefore, hfirst, by omega⟩
      · -- the range starts past the end of the file
        rw [filter_overlaps_eq_nil h.2 (by omega)]
        have hwhole := length_fileOf hsizes'
        refine ⟨fileOf plaintext older ++ plaintext c.1, [], by simp [plaintextOf], ?_, by simp, ?_⟩
        · rw [length_append]
          omega
        · rw [length_append]
          simp only [plaintextOf, flatMap_nil, length_nil]
          omega

/-- **The slice**: what is kept of the chunks in the range is what the range is of the file. -/
theorem take_drop_plaintextOf
    (hsizes : ∀ c ∈ chunks, ((plaintext c.1).length : ℤ) = c.2.originalSize)
    (hrange : 0 ≤ range.startByte ∧ range.startByte < range.endByteExclusive)
    (hend : range.endByteExclusive ≤ chainSize chunks) {first : AttachmentReadPlanChunk}
    (hfirst : ((chunkLayout chunks).filter range.overlaps).head? = some first) :
    ((plaintextOf plaintext ((chunkLayout chunks).filter range.overlaps)).drop
        (range.startByte - first.startByte).toNat).take
        (range.endByteExclusive - range.startByte).toNat
      = ((fileOf plaintext chunks).drop range.startByte.toNat).take
        (range.endByteExclusive - range.startByte).toNat := by
  obtain ⟨before, after, hfile, hbefore, hstart, hcovers⟩ := exists_fileOf_eq h hsizes hrange
  have hfirst' := hstart first hfirst
  have hoffset : range.startByte.toNat = before.length + (range.startByte - first.startByte).toNat := by
    omega
  rw [hfile, append_assoc, hoffset, drop_length_add_append,
    drop_append_of_le_length (by omega), take_append_of_le_length]
  rw [length_drop]
  omega

end

theorem finalizeAttachmentReadPlan_of_head? {attachmentSize : ℤ}
    {chunkPlans : List AttachmentReadPlanChunk} {first : AttachmentReadPlanChunk}
    (hrange : range.startByte ≠ range.endByteExclusive) (hfirst : chunkPlans.head? = some first) :
    finalizeAttachmentReadPlan attachmentSize range chunkPlans
      = .ok ⟨attachmentSize, range.startByte, range.endByteExclusive, chunkPlans,
        Doubles.nearest (range.startByte - first.startByte)⟩ := by
  cases chunkPlans with
  | nil => cases hfirst
  | cons chunk rest =>
    obtain rfl := some.inj hfirst
    rw [finalizeAttachmentReadPlan, if_neg hrange]

/-- **A plan of a range of a file**: the chunks that overlap the range, in file order and without a
gap, and the offset at which their plaintexts hold it. -/
structure IsReadPlanOf (chunks : List StoredChunk) (plaintext : JSString → List UInt8)
    (range : NormalizedAttachmentReadRange) (plan : AttachmentReadPlan) : Prop where
  attachmentSize : plan.attachmentSize = chainSize chunks
  startByte : plan.startByte = range.startByte
  endByteExclusive : plan.endByteExclusive = range.endByteExclusive
  chunkPlans : plan.chunkPlans = (chunkLayout chunks).filter range.overlaps
  contiguous : Contiguous plan.chunkPlans
  offset_nonneg : 0 ≤ plan.offsetInFirstChunk
  slice : ((plaintextOf plaintext plan.chunkPlans).drop plan.offsetInFirstChunk.toNat).take
      (range.endByteExclusive - range.startByte).toNat
    = ((fileOf plaintext chunks).drop range.startByte.toNat).take
      (range.endByteExclusive - range.startByte).toNat

/-- The plan of no bytes. -/
theorem isReadPlanOf_nil (hempty : range.startByte = range.endByteExclusive) :
    IsReadPlanOf chunks plaintext range
      ⟨chainSize chunks, range.startByte, range.endByteExclusive, [], 0⟩ where
  attachmentSize := rfl
  startByte := rfl
  endByteExclusive := rfl
  chunkPlans := by
    refine (filter_eq_nil_iff.mpr fun chunk _ hoverlaps => ?_).symm
    obtain ⟨byte, ⟨hfrom, hto⟩, -⟩ := overlaps_iff.mp hoverlaps
    omega
  contiguous := .nil
  offset_nonneg := le_rfl
  slice := by
    have hzero : (range.endByteExclusive - range.startByte).toNat = 0 := by omega
    rw [hzero, take_zero, take_zero]

/-- **What the walk collects is a plan.** -/
theorem exists_isReadPlanOf (h : IsChunkChain getEntryMetadata chunks)
    (range : NormalizedAttachmentReadRange)
    (hsizes : ∀ c ∈ chunks, ((plaintext c.1).length : ℤ) = c.2.originalSize)
    (hrange : 0 ≤ range.startByte ∧ range.startByte < range.endByteExclusive)
    (hend : range.endByteExclusive ≤ chainSize chunks) (hdouble : chainSize chunks ≤ 2 ^ 53) :
    ∃ plan, finalizeAttachmentReadPlan (chainSize chunks) range
        ((chunkLayout chunks).filter range.overlaps) = .ok plan ∧
      IsReadPlanOf chunks plaintext range plan := by
  obtain ⟨before, after, -, hbefore, hat, hcovers⟩ := exists_fileOf_eq h hsizes hrange
  have hsome : ((chunkLayout chunks).filter range.overlaps).head?.isSome = true := by
    rw [isSome_head?]
    intro hnone
    rw [hnone] at hcovers
    simp only [plaintextOf, flatMap_nil, length_nil] at hcovers
    omega
  obtain ⟨first, hfirst⟩ := isSome_iff_exists.mp hsome
  have hfirst' := hat first hfirst
  refine ⟨_, finalizeAttachmentReadPlan_of_head? hrange.2.ne hfirst, ?_⟩
  rw [Doubles.nearest_of_le (by omega)]
  refine ⟨rfl, rfl, rfl, rfl, (contiguous_filter_overlaps h hrange.2).1, ?_,
    take_drop_plaintextOf h hsizes hrange hend hfirst⟩
  simp only
  omega

end Chain

/-- **The planner is right on every file, and comes to an end on anything**, up to `2 ^ 53` bytes. -/
theorem planAttachmentReadByWalkingMetadata_spec
    (getEntryMetadata : JSString → Option SyncEntryMetadata) (lastChunkId : JSString)
    (options : AttachmentReadPlanOptions) (attachmentSize : ℤ) (hdouble : attachmentSize ≤ 2 ^ 53)
    (fuel : ℕ) (hfuel : attachmentSize ≤ fuel) :
    (∀ (chunks : List StoredChunk) (plaintext : JSString → List UInt8),
      IsChunkChain getEntryMetadata chunks →
      (∀ newest ∈ chunks.head?, lastChunkId = newest.1) →
      (∀ c ∈ chunks, ((plaintext c.1).length : ℤ) = c.2.originalSize) →
      chainSize chunks = attachmentSize →
      0 ≤ options.startByte →
      options.startByte ≤ options.endByteExclusive.getD attachmentSize →
      options.endByteExclusive.getD attachmentSize ≤ attachmentSize →
      ∃ plan, planAttachmentReadByWalkingMetadata getEntryMetadata attachmentSize fuel lastChunkId
          options = some (.ok plan) ∧
        IsReadPlanOf chunks plaintext
          ⟨options.startByte, options.endByteExclusive.getD attachmentSize⟩ plan)
    ∧ ∃ outcome, planAttachmentReadByWalkingMetadata getEntryMetadata attachmentSize fuel
        lastChunkId options = some outcome := by
  refine ⟨?_, isSome_iff_exists.mp
    (isSome_planAttachmentReadByWalkingMetadata hdouble hfuel lastChunkId options)⟩
  rintro chunks plaintext h hnewest hsizes rfl hstart hle hend
  have hnormal : normalizeAttachmentReadRange (chainSize chunks) options
      = .ok ⟨options.startByte, options.endByteExclusive.getD (chainSize chunks)⟩ := by
    rw [normalizeAttachmentReadRange, if_neg (by omega), if_neg (by omega)]
  rw [planAttachmentReadByWalkingMetadata, hnormal]
  simp only
  by_cases hempty : options.startByte = options.endByteExclusive.getD (chainSize chunks)
  · refine ⟨_, ?_, isReadPlanOf_nil hempty⟩
    rw [if_pos (Or.inl hempty), finalizeAttachmentReadPlan, if_pos hempty]
  · have hrange := And.intro hstart (lt_of_le_of_ne hle hempty)
    obtain ⟨w, hwalk, habove, hplans⟩ := walkChunks_chain h hdouble (chainSize chunks)
      ⟨options.startByte, options.endByteExclusive.getD (chainSize chunks)⟩ hrange hfuel []
    obtain ⟨plan, hplan, hisPlan⟩ := exists_isReadPlanOf h
      ⟨options.startByte, options.endByteExclusive.getD (chainSize chunks)⟩ hsizes hrange hend hdouble
    have hroot : chunks.head?.map Prod.fst = some lastChunkId := by
      cases chunks with
      | nil =>
        have hzero : chainSize [] = 0 := rfl
        omega
      | cons c older => rw [hnewest c rfl, head?_cons, map_some]
    refine ⟨plan, ?_, hisPlan⟩
    rw [if_neg (by omega), ← hroot, hwalk, map_some, Except.bind, finishWalk,
      if_neg (fun hboth => absurd hboth.2 (not_lt.mpr habove)), hplans, nil_append,
      reverse_reverse, hplan]

/-- A chunk of an attachment. -/
def sampleChunk (id : JSString) (dependencyIds : List JSString) (originalSize : ℤ) : StoredChunk :=
  (id, { StoreEntryMetadata.unwitnessed .attachmentChunk id "d" "h" dependencyIds 0 with
    decryptionKeyId := "k", createdByPublicKey := "p", signature := [], originalSize := originalSize
    encryptedSize := 9 })

/-- A file of two chunks. -/
def twoChunks : List StoredChunk := [sampleChunk "b" ["a"] 2, sampleChunk "a" [] 3]

/-- Two bytes that lie in both chunks. -/
theorem planAttachmentReadByWalkingMetadata_spec_twoChunks :
    ∃ plan, planAttachmentReadByWalkingMetadata (fun id => List.lookup id twoChunks) 5 5 "b"
        ⟨2, some 4⟩ = some (.ok plan) ∧
      IsReadPlanOf twoChunks (fun id => if id = "a" then [1, 2, 3] else [4, 5]) ⟨2, 4⟩ plan := by
  refine (planAttachmentReadByWalkingMetadata_spec (fun id => List.lookup id twoChunks) "b"
    ⟨2, some 4⟩ 5 (by decide) 5 (by decide)).1 twoChunks _
    ⟨⟨rfl, ?_, rfl, by decide, rfl⟩, ⟨rfl, ?_, rfl, by decide, rfl⟩, trivial⟩ ?_ ?_ rfl (by decide)
    (by decide) (by decide)
  · rfl
  · rfl
  · rintro newest hnewest
    obtain rfl := mem_some.mp hnewest
    rfl
  · simp [twoChunks, sampleChunk]
    decide

/-- Every id is of one chunk of one byte, which names itself. -/
def selfChunk (_ : JSString) : Option SyncEntryMetadata := some (sampleChunk "c" ["c"] 1).2

/-- A byte less than `2 ^ 54` is `2 ^ 54` again. -/
theorem walkChunks_selfChunk (fuel : ℕ) (plans : List AttachmentReadPlanChunk) :
    walkChunks selfChunk (2 ^ 54) ⟨0, 2 ^ 54⟩ fuel ⟨some "c", 2 ^ 54, plans⟩ = none := by
  have hrounds : Doubles.nearest (2 ^ 54 - 1) = 2 ^ 54 := by decide +kernel
  induction fuel generalizing plans with
  | zero => rfl
  | succ fuel ih =>
    have hround : walkChunk selfChunk (2 ^ 54) ⟨0, 2 ^ 54⟩ ⟨some "c", 2 ^ 54, plans⟩ "c"
        = .ok ⟨some "c", 2 ^ 54, plans⟩ := by
      have hvalid : validateAttachmentChunkMetadata (selfChunk "c") "c"
          = .ok (sampleChunk "c" ["c"] 1).2 := rfl
      have hsize : (sampleChunk "c" ["c"] 1).2.originalSize = 1 := rfl
      rw [walkChunk, hvalid]
      simp only [bind, Except.bind, hsize, hrounds]
      rfl
    rw [walkChunks]
    have hid : (some ("c" : JSString)).filter (fun id => !id.isEmpty) = some ("c" : JSString) := rfl
    dsimp only
    rw [hid]
    dsimp only
    rw [if_pos (by decide), hround]
    exact ih plans

/-- **The walk need not end**: in a file of `2 ^ 54` bytes, a chunk of one byte takes nothing off. -/
theorem not_planAttachmentReadByWalkingMetadata_ends :
    ¬ ∀ (getEntryMetadata : JSString → Option SyncEntryMetadata) (attachmentSize : ℤ)
      (lastChunkId : JSString) (options : AttachmentReadPlanOptions), ∃ fuel outcome,
      planAttachmentReadByWalkingMetadata getEntryMetadata attachmentSize fuel lastChunkId options
        = some outcome := by
  intro h
  obtain ⟨fuel, outcome, hends⟩ := h selfChunk (2 ^ 54) "c" ⟨0, none⟩
  rw [planAttachmentReadByWalkingMetadata] at hends
  have hnormal : normalizeAttachmentReadRange (2 ^ 54) ⟨0, none⟩ = .ok ⟨0, 2 ^ 54⟩ := by
    decide +kernel
  rw [hnormal] at hends
  dsimp only at hends
  rw [if_neg (by decide), walkChunks_selfChunk fuel []] at hends
  cases hends

end MindooDB
