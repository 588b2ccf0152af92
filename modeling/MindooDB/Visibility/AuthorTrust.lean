import MindooDB.Lib.JSString
import MindooDB.Lib.Run

/-!
# Visibility/AuthorTrust — healing the documents of a late grant

`core/BaseMindooDB.ts`: entries of an author whom the directory does not trust yet are left out of
a document, and `pendingUntrustedAuthors` records the author.  `reconcileAuthorTrust` takes the
records of the authors that became trusted, then purges and re-indexes their documents one after
the other.  Each step below is what a load, an update, or a reconcile does between two awaits.

The records are gone before the documents are healed, and a document whose key is not found is not
indexed again; a snapshot is left out without a record, and a load may store what it judged before
the grant (`not_healed`).  Where none of this happens, nothing is lost (`healed_run`).
-/

namespace MindooDB

open Function

/-- `loadDocumentInternal` and `applyNewEntriesToCachedDocument` under way. -/
structure AuthorTrustLoad where
  docId : JSString
  /-- The authors whose entries the document will lack. -/
  leftOut : Finset JSString := ∅
  /-- The keys that could not be imported, to be recorded. -/
  untrusted : Finset JSString := ∅
deriving DecidableEq

/-- `reconcileAuthorTrustNow`, of which one runs at a time. -/
inductive AuthorTrustReconcile where
  | idle
  /-- The directory confirms the candidates. -/
  | validating (candidates trustedKeys : Finset JSString)
  /-- The records are taken; a document is between its purge and its index update. -/
  | healing (current : Option JSString) (remaining : Finset JSString)
deriving DecidableEq

structure AuthorTrust where
  /-- The signing keys that the directory trusts. -/
  trusted : Finset JSString := ∅
  /-- The keys with the documents that wait for them. -/
  pendingUntrustedAuthors : Finset (JSString × JSString) := ∅
  /-- The authors that a document in memory lacks. -/
  docCache : JSString → Option (Finset JSString) := fun _ => none
  /-- A record of the L2 store, with its `changeSeq`. -/
  l2 : JSString → Option (Nat × Finset JSString) := fun _ => none
  nextChangeSeq : Nat := 1
  changeSeq : JSString → Nat := fun _ => 0
  loads : List AuthorTrustLoad := []
  /-- The chain of calls, each with its `newlyTrustedKeys`. -/
  calls : List (Option (Finset JSString)) := []
  reconcile : AuthorTrustReconcile := .idle
  /-- A key became trusted, and no reconcile was called since. -/
  due : Bool := false
  /-- Authors whose entries a document lacked, and that was not purged since. -/
  left : Finset (JSString × JSString) := ∅
  /-- …and that was purged, but not indexed since. -/
  purged : Finset (JSString × JSString) := ∅

inductive AuthorTrustStep where
  | startLoad (docId : JSString)
  /-- An update starts from the document in memory. -/
  | startUpdate (docId : JSString)
  /-- `tryLoadFromL2`: a stale record has its missing entries judged again. -/
  | startFromL2 (docId : JSString)
  /-- `getOrImportPublicKey` for the entries of an author. -/
  | judge (load : AuthorTrustLoad) (publicKey : JSString)
  /-- `tenant.verifyEntrySignature` for the snapshot of the plan. -/
  | judgeSnapshot (load : AuthorTrustLoad) (publicKey : JSString)
  /-- `recordPendingUntrustedAuthor`. -/
  | record (load : AuthorTrustLoad)
  /-- `storeCachedDocument`. -/
  | store (load : AuthorTrustLoad)
  | abandon (load : AuthorTrustLoad)
  | flush (docId : JSString)
  | evict (docId : JSString)
  | updateIndex (docId : JSString)
  /-- A `grantaccess` document arrives. -/
  | trust (publicKey : JSString)
  | call (newlyTrustedKeys : Option (Finset JSString))
  | startReconcile
  /-- `validatePublicSigningKey` answers, or fails. -/
  | validate (publicKey : JSString) (fails : Bool)
  /-- The records of the trusted keys are removed. -/
  | take
  /-- `purgeMaterializedDocument`, up to its await. -/
  | purge (docId : JSString)
  | evictL2
  /-- The document is scanned, and indexed if it has entries and `hasDecryptionKey` finds its key. -/
  | reindex (hasDecryptionKey : Bool)
  | finish
  /-- An await of the reconcile throws. -/
  | fail

namespace AuthorTrust

/-- The authors of a document, as records. -/
def recordsOf (docId : JSString) (publicKeys : Finset JSString) : Finset (JSString × JSString) :=
  publicKeys.image fun publicKey => (publicKey, docId)

variable {docId : JSString}

@[simp] theorem mem_recordsOf {docId' publicKey : JSString} {publicKeys : Finset JSString} :
    (publicKey, docId') ∈ recordsOf docId publicKeys ↔ publicKey ∈ publicKeys ∧ docId' = docId := by
  simp [recordsOf, and_comm, eq_comm]

variable (s : AuthorTrust)

/-- `updateIndex` of a document, with the change forced. -/
def bump (docId : JSString) : AuthorTrust :=
  { s with
    nextChangeSeq := s.nextChangeSeq + 1
    changeSeq := update s.changeSeq docId s.nextChangeSeq }

/-- A load goes on. -/
def replaceLoad (load load' : AuthorTrustLoad) : AuthorTrust :=
  { s with loads := load' :: s.loads.erase load }

/-- What an L2 record leaves out, once the entries it lacks are looked at. -/
def leftOutOfRecord (docId : JSString) : Nat × Finset JSString → Finset JSString
  | (changeSeq, leftOut) => if changeSeq = s.changeSeq docId then leftOut else ∅

def step : AuthorTrustStep → AuthorTrust
  | .startLoad docId => { s with loads := { docId } :: s.loads }
  | .startUpdate docId =>
    match s.docCache docId with
    | some leftOut => { s with loads := { docId, leftOut } :: s.loads }
    | none => s
  | .startFromL2 docId =>
    match s.l2 docId with
    | some stored =>
      { s with loads := { docId, leftOut := s.leftOutOfRecord docId stored } :: s.loads }
    | none => s
  | .judge load publicKey =>
    if load ∈ s.loads ∧ publicKey ∉ s.trusted then
      s.replaceLoad load
        { load with
          leftOut := insert publicKey load.leftOut
          untrusted := insert publicKey load.untrusted }
    else s
  | .judgeSnapshot load publicKey =>
    if load ∈ s.loads ∧ publicKey ∉ s.trusted then
      s.replaceLoad load { load with leftOut := insert publicKey load.leftOut }
    else s
  | .record load =>
    if load ∈ s.loads then
      let records := recordsOf load.docId load.untrusted
      { s.replaceLoad load { load with untrusted := ∅ } with
        pendingUntrustedAuthors := s.pendingUntrustedAuthors ∪ records
        left := s.left ∪ records }
    else s
  | .store load =>
    if load ∈ s.loads then
      { s with
        loads := s.loads.erase load
        docCache := update s.docCache load.docId (some load.leftOut)
        left := s.left ∪ recordsOf load.docId load.leftOut }
    else s
  | .abandon load => { s with loads := s.loads.erase load }
  | .flush docId =>
    { s with
      l2 := update s.l2 docId ((s.docCache docId).map ((s.changeSeq docId, ·))) }
  | .evict docId => { s with docCache := update s.docCache docId none }
  | .updateIndex docId => s.bump docId
  | .trust publicKey => { s with trusted := insert publicKey s.trusted, due := true }
  | .call newlyTrustedKeys => { s with calls := s.calls ++ [newlyTrustedKeys], due := false }
  | .startReconcile =>
    match s.reconcile, s.calls with
    | .idle, newlyTrustedKeys :: calls =>
      let pendingKeys := s.pendingUntrustedAuthors.image Prod.fst
      let candidates := newlyTrustedKeys.elim pendingKeys (pendingKeys ∩ ·)
      { s with
        calls
        reconcile := if candidates = ∅ then .idle else .validating candidates ∅ }
    | _, _ => s
  | .validate publicKey fails =>
    match s.reconcile with
    | .validating candidates trustedKeys =>
      if publicKey ∈ candidates then
        { s with
          reconcile := .validating (candidates.erase publicKey)
            (if !fails ∧ publicKey ∈ s.trusted then insert publicKey trustedKeys else trustedKeys) }
      else s
    | _ => s
  | .take =>
    match s.reconcile with
    | .validating candidates trustedKeys =>
      if candidates = ∅ then
        if trustedKeys = ∅ then { s with reconcile := .idle }
        else
          let taken := s.pendingUntrustedAuthors.filter (·.1 ∈ trustedKeys)
          { s with
            pendingUntrustedAuthors := s.pendingUntrustedAuthors \ taken
            reconcile := .healing none (taken.image Prod.snd) }
      else s
    | _ => s
  | .purge docId =>
    match s.reconcile with
    | .healing none remaining =>
      if docId ∈ remaining then
        { s with
          docCache := update s.docCache docId none
          reconcile := .healing (some docId) (remaining.erase docId)
          left := s.left.filter (·.2 ≠ docId)
          purged := s.purged ∪ s.left.filter (·.2 = docId) }
      else s
    | _ => s
  | .evictL2 =>
    match s.reconcile with
    | .healing (some docId) _ => { s with l2 := update s.l2 docId none }
    | _ => s
  | .reindex hasDecryptionKey =>
    match s.reconcile with
    | .healing (some docId) remaining =>
      if hasDecryptionKey then
        { s.bump docId with
          reconcile := .healing none remaining
          purged := s.purged.filter (·.2 ≠ docId) }
      else { s with reconcile := .healing none remaining }
    | _ => s
  | .finish => if s.reconcile = .healing none ∅ then { s with reconcile := .idle } else s
  | .fail => { s with reconcile := .idle }

/-- All calls have finished, and a reconcile was called after the last grant. -/
structure Finished : Prop where
  loads : s.loads = []
  calls : s.calls = []
  reconcile : s.reconcile = .idle
  due : s.due = false

/-- **No document is forgotten**: one that lacked entries of an author who is trusted now was
purged and indexed since, or is recorded. -/
def Healed : Prop :=
  ∀ publicKey ∈ s.trusted, ∀ docId, (publicKey, docId) ∈ s.left ∪ s.purged →
    (publicKey, docId) ∈ s.pendingUntrustedAuthors

/-! ## The condition -/

/-- The documents that a reconcile has still to purge. -/
def toPurge : Finset JSString :=
  match s.reconcile with
  | .healing _ remaining => remaining
  | _ => ∅

/-- The document that a reconcile has purged, and not indexed. -/
def toIndex : Finset JSString :=
  match s.reconcile with
  | .healing (some docId) _ => {docId}
  | _ => ∅

/-- A document is recorded under an author, or its purge is ahead. -/
def Kept (publicKey docId : JSString) : Prop :=
  (publicKey, docId) ∈ s.pendingUntrustedAuthors ∨ docId ∈ s.toPurge

/-- **Nothing is left out behind a reconcile**: what is stored lacks no entries of a trusted author,
and no author becomes trusted whose entries a document lacks, unless the document is recorded or its
purge is ahead; a reconcile finds the key of a document that it has purged, and does not fail with
documents ahead. -/
def Ordered : AuthorTrustStep → Prop
  | .store load => ∀ publicKey ∈ load.leftOut, publicKey ∈ s.trusted → s.Kept publicKey load.docId
  | .trust publicKey => ∀ record ∈ s.left, record.1 = publicKey → s.Kept publicKey record.2
  | .reindex hasDecryptionKey => hasDecryptionKey ∨ s.toIndex = ∅
  | .fail => s.toPurge = ∅ ∧ s.toIndex = ∅
  | _ => True

instance (publicKey docId : JSString) : Decidable (s.Kept publicKey docId) :=
  inferInstanceAs (Decidable (_ ∈ s.pendingUntrustedAuthors ∨ _ ∈ s.toPurge))

instance : (event : AuthorTrustStep) → Decidable (s.Ordered event)
  | .store load => inferInstanceAs (Decidable (∀ publicKey ∈ load.leftOut,
      publicKey ∈ s.trusted → s.Kept publicKey load.docId))
  | .trust publicKey => inferInstanceAs (Decidable (∀ record ∈ s.left,
      record.1 = publicKey → s.Kept publicKey record.2))
  | .reindex hasDecryptionKey => inferInstanceAs (Decidable (hasDecryptionKey ∨ s.toIndex = ∅))
  | .fail => inferInstanceAs (Decidable (s.toPurge = ∅ ∧ s.toIndex = ∅))
  | .startLoad _ | .startUpdate _ | .startFromL2 _ | .judge .. | .judgeSnapshot .. | .record _
  | .abandon _ | .flush _ | .evict _ | .updateIndex _ | .call _ | .startReconcile | .validate ..
  | .take | .purge _ | .evictL2 | .finish => inferInstanceAs (Decidable True)

/-- What the steps keep. -/
structure Covered : Prop where
  left : ∀ publicKey ∈ s.trusted, ∀ docId, (publicKey, docId) ∈ s.left → s.Kept publicKey docId
  purged : ∀ record ∈ s.purged, record.2 ∈ s.toIndex

variable {s}

/-! ## Loads and updates -/

/-- What a load leaves out, and records, is covered. -/
theorem Covered.record (h : s.Covered) (load : AuthorTrustLoad) :
    (s.step (.record load)).Covered := by
  rw [step]
  split
  swap
  · exact h
  refine ⟨fun publicKey htrusted docId hleft => ?_, h.purged⟩
  rcases Finset.mem_union.mp hleft with hleft | hleft
  · exact (h.left publicKey htrusted docId hleft).imp_left (Finset.mem_union_left _)
  · exact .inl (Finset.mem_union_right _ hleft)

theorem Covered.store (h : s.Covered) (load : AuthorTrustLoad)
    (hordered : s.Ordered (.store load)) : (s.step (.store load)).Covered := by
  rw [step]
  split
  swap
  · exact h
  refine ⟨fun publicKey htrusted docId hleft => ?_, h.purged⟩
  rcases Finset.mem_union.mp hleft with hleft | hleft
  · exact h.left publicKey htrusted docId hleft
  · obtain ⟨hmem, rfl⟩ := mem_recordsOf.mp hleft
    exact hordered publicKey hmem htrusted

/-! ## A reconcile -/

section

variable (h : s.Covered)

include h

theorem Covered.recorded (hpurge : s.toPurge = ∅) {publicKey : JSString}
    (htrusted : publicKey ∈ s.trusted) (hleft : (publicKey, docId) ∈ s.left) :
    (publicKey, docId) ∈ s.pendingUntrustedAuthors := by
  refine (h.left publicKey htrusted docId hleft).resolve_right fun hmem => ?_
  rw [hpurge] at hmem
  exact absurd hmem (Finset.notMem_empty docId)

theorem Covered.notMem_purged (hindex : s.toIndex = ∅) (record : JSString × JSString) :
    record ∉ s.purged := by
  intro hrecord
  have hmem := h.purged record hrecord
  rw [hindex] at hmem
  exact absurd hmem (Finset.notMem_empty _)

/-- A reconcile goes on, or ends, with no document ahead. -/
theorem Covered.setReconcile (hpurge : s.toPurge = ∅) (hindex : s.toIndex = ∅)
    (phase : AuthorTrustReconcile) : Covered { s with reconcile := phase } where
  left _ htrusted _ hleft := .inl (h.recorded hpurge htrusted hleft)
  purged record hrecord := absurd hrecord (h.notMem_purged hindex record)

theorem Covered.startReconcile :
    (s.step .startReconcile).Covered := by
  rw [step]
  split
  swap
  · exact h
  rename_i newlyTrustedKeys calls hidle hcalls
  have hcalled : Covered { s with calls := calls } := ⟨h.left, h.purged⟩
  refine hcalled.setReconcile ?_ ?_ _
  · simp [toPurge, hidle]
  · simp [toIndex, hidle]

/-- The documents whose records are taken are ahead. -/
theorem Covered.take : (s.step .take).Covered := by
  rw [step]
  split
  swap
  · exact h
  rename_i candidates trustedKeys hvalidating
  have hpurge : s.toPurge = ∅ := by simp [toPurge, hvalidating]
  have hindex : s.toIndex = ∅ := by simp [toIndex, hvalidating]
  split_ifs with hdone hnone
  · exact h.setReconcile hpurge hindex _
  · refine ⟨fun publicKey htrusted docId hleft => ?_,
      fun record hrecord => absurd hrecord (h.notMem_purged hindex record)⟩
    have hrecord := h.recorded hpurge htrusted hleft
    by_cases htaken : publicKey ∈ trustedKeys
    · exact .inr (Finset.mem_image.mpr
        ⟨(publicKey, docId), Finset.mem_filter.mpr ⟨hrecord, htaken⟩, rfl⟩)
    · exact .inl (Finset.mem_sdiff.mpr
        ⟨hrecord, fun hmem => htaken (Finset.mem_filter.mp hmem).2⟩)
  · exact h

/-- A document that is purged is indexed next. -/
theorem Covered.purge (docId : JSString) :
    (s.step (.purge docId)).Covered := by
  rw [step]
  split
  swap
  · exact h
  rename_i remaining hhealing
  have htoPurge : s.toPurge = remaining := by simp [toPurge, hhealing]
  have htoIndex : s.toIndex = ∅ := by simp [toIndex, hhealing]
  split
  swap
  · exact h
  rename_i hdocId
  refine ⟨fun publicKey htrusted other hleft => ?_, fun record hrecord => ?_⟩
  · obtain ⟨hleft, hne⟩ := Finset.mem_filter.mp hleft
    exact (h.left publicKey htrusted other hleft).imp_right fun hpurge =>
      Finset.mem_erase.mpr ⟨hne, htoPurge ▸ hpurge⟩
  · rcases Finset.mem_union.mp hrecord with hrecord | hrecord
    · exact absurd hrecord (h.notMem_purged htoIndex record)
    · exact Finset.mem_singleton.mpr (Finset.mem_filter.mp hrecord).2

/-- A document that is indexed was purged before. -/
theorem Covered.reindex (hasDecryptionKey : Bool)
    (hordered : s.Ordered (.reindex hasDecryptionKey)) :
    (s.step (.reindex hasDecryptionKey)).Covered := by
  rw [step]
  split
  swap
  · exact h
  rename_i docId remaining hhealing
  have htoPurge : s.toPurge = remaining := by simp [toPurge, hhealing]
  have htoIndex : s.toIndex = {docId} := by simp [toIndex, hhealing]
  have hfound : hasDecryptionKey = true :=
    hordered.resolve_right (htoIndex ▸ Finset.singleton_ne_empty docId)
  rw [if_pos hfound]
  refine ⟨fun publicKey htrusted other hleft => ?_, fun record hrecord => ?_⟩
  · exact (h.left publicKey htrusted other hleft).imp_right fun hpurge => htoPurge ▸ hpurge
  · obtain ⟨hrecord, hne⟩ := Finset.mem_filter.mp hrecord
    have hindex := h.purged record hrecord
    rw [htoIndex] at hindex
    exact absurd (Finset.mem_singleton.mp hindex) hne

theorem Covered.finish : (s.step .finish).Covered := by
  rw [step]
  split
  · rename_i hdone
    exact h.setReconcile (by simp [toPurge, hdone]) (by simp [toIndex, hdone]) _
  · exact h

/-- **Every step that is in order keeps what is known.** -/
theorem Covered.step (event : AuthorTrustStep) (hordered : s.Ordered event) :
    (s.step event).Covered := by
  cases event with
  | startLoad docId | call newlyTrustedKeys | abandon load | evict docId | flush docId
  | updateIndex docId => exact ⟨h.left, h.purged⟩
  | startUpdate docId | startFromL2 docId =>
    rw [AuthorTrust.step]
    split
    · exact ⟨h.left, h.purged⟩
    · exact h
  | judge load publicKey | judgeSnapshot load publicKey =>
    rw [AuthorTrust.step]
    split
    · exact ⟨h.left, h.purged⟩
    · exact h
  | record load => exact h.record load
  | store load => exact h.store load hordered
  | trust publicKey =>
    refine ⟨fun other htrusted docId hleft => ?_, h.purged⟩
    rcases Finset.mem_insert.mp htrusted with rfl | htrusted
    · exact hordered _ hleft rfl
    · exact h.left other htrusted docId hleft
  | startReconcile => exact h.startReconcile
  | validate publicKey fails =>
    rw [AuthorTrust.step]
    split
    swap
    · exact h
    rename_i candidates trustedKeys hvalidating
    split
    · exact h.setReconcile (by simp [toPurge, hvalidating]) (by simp [toIndex, hvalidating]) _
    · exact h
  | take => exact h.take
  | purge docId => exact h.purge docId
  | evictL2 =>
    rw [AuthorTrust.step]
    split
    · exact ⟨h.left, h.purged⟩
    · exact h
  | reindex hasDecryptionKey => exact h.reindex hasDecryptionKey hordered
  | finish => exact h.finish
  | fail => exact h.setReconcile hordered.1 hordered.2 _

theorem Covered.healed (hfinished : s.Finished) : s.Healed := by
  intro publicKey htrusted docId hmem
  rcases Finset.mem_union.mp hmem with hleft | hpurged
  · exact h.recorded (by simp [toPurge, hfinished.reconcile]) htrusted hleft
  · exact absurd hpurged (h.notMem_purged (by simp [toIndex, hfinished.reconcile]) _)

end

end AuthorTrust

open AuthorTrust

/-- **A late grant reaches every document that waits for it**, in a run where nothing is left out
behind a reconcile. -/
theorem healed_run (s : AuthorTrust) (hstart : s.Healed) (hpurged : s.purged = ∅)
    (events : List AuthorTrustStep)
    (hordered : Run.AllSteps AuthorTrust.step AuthorTrust.Ordered s events)
    (hfinished : (Run.run AuthorTrust.step s events).Finished) :
    (Run.run AuthorTrust.step s events).Healed := by
  have hcovered : s.Covered :=
    ⟨fun publicKey htrusted docId hleft =>
      Or.inl (hstart publicKey htrusted docId (Finset.mem_union_left _ hleft)),
      fun record hrecord => absurd (hpurged ▸ hrecord) (Finset.notMem_empty record)⟩
  have hrun : (Run.run AuthorTrust.step s events).Covered :=
    Run.induction hcovered (fun _ event h => h.step event) hordered
  exact hrun.healed hfinished

theorem healed_empty : Healed {} := fun _ htrusted => absurd htrusted (Finset.notMem_empty _)

/-- A document is loaded before its author is trusted, and healed. -/
def grantSteps : List AuthorTrustStep :=
  let load : AuthorTrustLoad := { docId := "d" }
  let judged : AuthorTrustLoad := { docId := "d", leftOut := {("k" : JSString)} }
  [.startLoad "d", .judge load "k", .record { judged with untrusted := {("k" : JSString)} },
    .store judged, .trust "k", .call none, .startReconcile, .validate "k" false, .take, .purge "d"]

theorem ordered_grantSteps : Run.AllSteps AuthorTrust.step AuthorTrust.Ordered {}
    (grantSteps ++ [.reindex true, .finish]) := by
  decide +kernel

theorem finished_grantSteps :
    (Run.run AuthorTrust.step {} (grantSteps ++ [.reindex true, .finish])).Finished :=
  ⟨by decide +kernel, by decide +kernel, by decide +kernel, by decide +kernel⟩

theorem healed_run_grantSteps :
    (Run.run AuthorTrust.step {} (grantSteps ++ [.reindex true, .finish])).Healed :=
  healed_run {} healed_empty rfl _ ordered_grantSteps finished_grantSteps

theorem finished_failingSteps :
    (Run.run AuthorTrust.step {} (grantSteps ++ [.fail])).Finished :=
  ⟨by decide +kernel, by decide +kernel, by decide +kernel, by decide +kernel⟩

theorem failingSteps_forgotten :
    ("k" : JSString) ∈ (Run.run AuthorTrust.step {} (grantSteps ++ [.fail])).trusted ∧
      (("k", "d") : JSString × JSString) ∈
        (Run.run AuthorTrust.step {} (grantSteps ++ [.fail])).purged ∧
      (("k", "d") : JSString × JSString) ∉
        (Run.run AuthorTrust.step {} (grantSteps ++ [.fail])).pendingUntrustedAuthors := by
  decide +kernel

/-- **A reconcile that fails forgets its documents**: the records are gone. -/
theorem not_healed : ¬∀ s : AuthorTrust, s.Finished → s.Healed → s.purged = ∅ →
    ∀ events, (Run.run AuthorTrust.step s events).Finished →
      (Run.run AuthorTrust.step s events).Healed := by
  intro h
  have hhealed := h {} ⟨rfl, rfl, rfl, rfl⟩ healed_empty rfl (grantSteps ++ [.fail])
    finished_failingSteps
  obtain ⟨htrusted, hpurged, hpending⟩ := failingSteps_forgotten
  exact hpending (hhealed "k" htrusted "d" (Finset.mem_union_right _ hpurged))

end MindooDB
