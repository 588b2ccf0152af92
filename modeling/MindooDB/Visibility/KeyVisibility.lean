import MindooDB.Lib.JSString
import MindooDB.Lib.Run

/-!
# Visibility/KeyVisibility — what a removed key leaves behind

`core/BaseMindooDB.ts`: documents are loaded, read from the L2 store and flushed to it, while a key
is removed and `reconcileKeyVisibility` purges what it opened.  Each step below is what one of them
does between two awaits.

A load has its key when it decrypts, and caches the document awaits later; a write to the L2 store
is encrypted before it lands.  Either may happen after the purge of the document
(`not_cleansed`), and a reconcile that throws leaves the documents behind it as they are.  Nothing
else brings a document back (`cleansed_run`).
-/

namespace MindooDB

open List

/-- The caches of a database, and the loads, writes and purges under way. -/
structure KeyVisibility where
  /-- The keys that the tenant has. -/
  keys : Finset JSString
  docCache : Finset JSString := ∅
  dirtyDocIds : Finset JSString := ∅
  l2 : Finset JSString := ∅
  /-- Records that were read from the L2 store, and not checked yet. -/
  reading : List JSString := []
  /-- Documents that a load has in the clear. -/
  decrypted : List JSString := []
  /-- Documents that a flush has serialized. -/
  writing : List JSString := []
  /-- Records that a purge is deleting. -/
  deleting : List JSString := []
  /-- A key was removed, and no reconcile has begun since. -/
  due : Bool := false
  /-- What the reconcile under way has still to look at. -/
  remaining : Finset JSString := ∅

inductive KeyVisibilityStep where
  /-- `loadDocumentInternal`: every entry of the document is decrypted. -/
  | decrypt (docId : JSString)
  /-- `storeCachedDocument`, and `markDocDirty` where the document may be flushed. -/
  | cache (docId : JSString) (markDirty : Bool)
  /-- A load fails. -/
  | abandon (docId : JSString)
  /-- `getDocument` finds the document in memory, and looks for its key. -/
  | hit (docId : JSString)
  /-- `tryLoadFromL2` reads a record. -/
  | readL2 (docId : JSString)
  /-- …and looks for its key. -/
  | checkL2 (docId : JSString)
  /-- `flushDirtyDocToCache` serializes a document. -/
  | serialize (docId : JSString)
  /-- …and its record is in the store. -/
  | writeLands (docId : JSString)
  | clearDirty
  | evict (docId : JSString)
  | removeKey (keyId : JSString)
  /-- `reconcileKeyVisibility` has scanned the store. -/
  | startReconcile
  /-- …and looks at a document. -/
  | reconcile (docId : JSString)
  /-- The scan of a reconcile throws. -/
  | scanFails
  /-- `ingestSealedFromEntries` or `hasDecryptionKey` throws, and the reconcile ends. -/
  | reconcileFails
  | deleteLands (docId : JSString)
  /-- A purge does not mind that a record stays. -/
  | deleteFails (docId : JSString)

namespace KeyVisibility

/-- The documents of the store, with their keys. -/
structure Documents where
  docIds : Finset JSString
  decryptionKeyId : JSString → JSString

variable (docs : Documents) (s : KeyVisibility)

def hasDecryptionKey (docId : JSString) : Bool := docs.decryptionKeyId docId ∈ s.keys

/-- `purgeMaterializedDocument`, up to the await. -/
def purgeMaterializedDocument (docId : JSString) : KeyVisibility :=
  { s with
    docCache := s.docCache.erase docId
    dirtyDocIds := s.dirtyDocIds.erase docId
    deleting := docId :: s.deleting }

def step : KeyVisibilityStep → KeyVisibility
  | .decrypt docId =>
    if docId ∈ docs.docIds ∧ s.hasDecryptionKey docs docId then
      { s with decrypted := docId :: s.decrypted }
    else s
  | .cache docId markDirty =>
    if docId ∈ s.decrypted then
      { s with
        decrypted := s.decrypted.erase docId
        docCache := insert docId s.docCache
        dirtyDocIds := if markDirty then insert docId s.dirtyDocIds else s.dirtyDocIds }
    else s
  | .abandon docId => { s with decrypted := s.decrypted.erase docId }
  | .hit docId =>
    if docId ∈ s.docCache ∧ !s.hasDecryptionKey docs docId then s.purgeMaterializedDocument docId
    else s
  | .readL2 docId => if docId ∈ s.l2 then { s with reading := docId :: s.reading } else s
  | .checkL2 docId =>
    if docId ∈ s.reading then
      let s := { s with reading := s.reading.erase docId }
      if s.hasDecryptionKey docs docId then { s with decrypted := docId :: s.decrypted }
      else s.purgeMaterializedDocument docId
    else s
  | .serialize docId =>
    if docId ∈ s.dirtyDocIds ∧ docId ∈ s.docCache then { s with writing := docId :: s.writing }
    else s
  | .writeLands docId =>
    if docId ∈ s.writing then
      { s with writing := s.writing.erase docId, l2 := insert docId s.l2 }
    else s
  | .clearDirty => { s with dirtyDocIds := ∅ }
  | .evict docId =>
    { s with docCache := s.docCache.erase docId, dirtyDocIds := s.dirtyDocIds.erase docId }
  | .removeKey keyId => { s with keys := s.keys.erase keyId, due := true }
  | .startReconcile => { s with due := false, remaining := docs.docIds }
  | .reconcile docId =>
    if docId ∈ s.remaining then
      let s := { s with remaining := s.remaining.erase docId }
      if s.hasDecryptionKey docs docId then s else s.purgeMaterializedDocument docId
    else s
  | .scanFails => { s with due := false }
  | .reconcileFails => { s with remaining := ∅ }
  | .deleteLands docId =>
    if docId ∈ s.deleting then
      { s with deleting := s.deleting.erase docId, l2 := s.l2.erase docId }
    else s
  | .deleteFails docId => { s with deleting := s.deleting.erase docId }

/-- Nothing is under way. -/
structure Finished : Prop where
  reading : s.reading = []
  decrypted : s.decrypted = []
  writing : s.writing = []
  deleting : s.deleting = []
  due : s.due = false
  remaining : s.remaining = ∅

/-- **No plaintext of a document whose key is gone.** -/
def Cleansed : Prop :=
  ∀ docId, s.hasDecryptionKey docs docId = false → docId ∉ s.docCache ∧ docId ∉ s.l2

/-! ## The condition -/

/-- The reconcile has a document still ahead. -/
def Ahead (docId : JSString) : Prop := s.due = true ∨ docId ∈ s.remaining

instance (docId : JSString) : Decidable (s.Ahead docId) :=
  inferInstanceAs (Decidable (s.due = true ∨ docId ∈ s.remaining))

/-- A reconcile need not look at a document: its key is there, or it is not in the caches. -/
def Dispensable (docId : JSString) : Prop :=
  s.hasDecryptionKey docs docId = true ∨
    docId ∉ s.docCache ∧ (docId ∈ s.l2 → docId ∈ s.deleting)

/-- **Nothing lands behind the purge**: a load caches a document, and a write brings its record,
while its key is there or its purge still ahead; no reconcile fails before it has looked at a
document that it must purge; and no purge fails to delete a record. -/
def Ordered : KeyVisibilityStep → Prop
  | .cache docId _ => s.hasDecryptionKey docs docId = true ∨ s.Ahead docId
  | .writeLands docId =>
    s.hasDecryptionKey docs docId = true ∨ s.Ahead docId ∨ docId ∈ s.deleting
  | .scanFails => ∀ docId, docId ∈ s.remaining ∨ s.Dispensable docs docId
  | .reconcileFails => s.due = true ∨ ∀ docId ∈ s.remaining, s.Dispensable docs docId
  | .deleteFails docId => docId ∉ s.l2
  | _ => True

/-- What the steps keep. -/
structure Kept : Prop where
  docCache : ∀ docId ∈ s.docCache, docId ∈ docs.docIds
  decrypted : ∀ docId ∈ s.decrypted, docId ∈ docs.docIds
  reading : ∀ docId ∈ s.reading, docId ∈ docs.docIds
  writing : ∀ docId ∈ s.writing, docId ∈ docs.docIds
  l2 : ∀ docId ∈ s.l2, docId ∈ docs.docIds
  cached : ∀ docId ∈ s.docCache, s.hasDecryptionKey docs docId = true ∨ s.Ahead docId
  recorded : ∀ docId ∈ s.l2,
    s.hasDecryptionKey docs docId = true ∨ s.Ahead docId ∨ docId ∈ s.deleting

variable {docs s}

theorem Kept.purgeMaterializedDocument (h : s.Kept docs) (docId : JSString) :
    (s.purgeMaterializedDocument docId).Kept docs where
  docCache other hother := h.docCache other (Finset.mem_of_mem_erase hother)
  decrypted := h.decrypted
  reading := h.reading
  writing := h.writing
  l2 := h.l2
  cached other hother := h.cached other (Finset.mem_of_mem_erase hother)
  recorded other hother := (h.recorded other hother).imp_right
    fun hahead => hahead.imp_right (mem_cons_of_mem _)

/-- A reconcile looks at a document: it keeps its key, or it is purged. -/
theorem Kept.reconcile (h : s.Kept docs) (docId : JSString) :
    (s.step docs (.reconcile docId)).Kept docs := by
  rw [step]
  split
  swap
  · exact h
  have hahead : ∀ other, other ≠ docId → s.Ahead other →
      Ahead { s with remaining := s.remaining.erase docId } other := fun other hne hahead =>
    hahead.imp_right fun hmem => Finset.mem_erase.mpr ⟨hne, hmem⟩
  by_cases hkey : s.hasDecryptionKey docs docId = true
  · have hkey' : hasDecryptionKey docs { s with remaining := s.remaining.erase docId } docId = true :=
      hkey
    simp only [hkey', if_true]
    refine ⟨h.docCache, h.decrypted, h.reading, h.writing, h.l2, fun other hother => ?_,
      fun other hother => ?_⟩
    · by_cases hne : other = docId
      · exact .inl (hne ▸ hkey)
      · exact (h.cached other hother).imp_right (hahead other hne)
    · by_cases hne : other = docId
      · exact .inl (hne ▸ hkey)
      · exact (h.recorded other hother).imp_right fun hlater => hlater.imp_left (hahead other hne)
  · have hkey' : ¬hasDecryptionKey docs { s with remaining := s.remaining.erase docId } docId = true :=
      hkey
    simp only [hkey']
    refine ⟨fun other hother => h.docCache other (Finset.mem_of_mem_erase hother), h.decrypted,
      h.reading, h.writing, h.l2, fun other hother => ?_, fun other hother => ?_⟩
    · obtain ⟨hne, hother⟩ := Finset.mem_erase.mp hother
      exact (h.cached other hother).imp_right (hahead other hne)
    · by_cases hne : other = docId
      · exact .inr (.inr (hne ▸ mem_cons_self))
      · exact (h.recorded other hother).imp_right fun hlater =>
          hlater.imp (hahead other hne) (mem_cons_of_mem _)

/-- A reconcile fails, and what it had to purge is still ahead. -/
theorem Kept.of_fails (h : s.Kept docs) {due : Bool} {remaining : Finset JSString}
    (hfails : ∀ docId, s.Ahead docId →
      Ahead { s with due := due, remaining := remaining } docId ∨ s.Dispensable docs docId) :
    Kept docs { s with due := due, remaining := remaining } := by
  refine ⟨h.docCache, h.decrypted, h.reading, h.writing, h.l2, fun docId hcached => ?_,
    fun docId hrecorded => ?_⟩
  · refine (h.cached docId hcached).elim .inl fun hahead => ?_
    rcases hfails docId hahead with hahead | hkey | ⟨hnot, -⟩
    · exact .inr hahead
    · exact .inl hkey
    · exact absurd hcached hnot
  · rcases h.recorded docId hrecorded with hkey | hahead | hdeleting
    · exact .inl hkey
    · rcases hfails docId hahead with hahead | hkey | ⟨-, hdeleting⟩
      · exact .inr (.inl hahead)
      · exact .inl hkey
      · exact .inr (.inr (hdeleting hrecorded))
    · exact .inr (.inr hdeleting)

/-- **Every step that is in order keeps what is known.** -/
theorem Kept.step (h : s.Kept docs) (event : KeyVisibilityStep) (hordered : s.Ordered docs event) :
    (s.step docs event).Kept docs := by
  cases event with
  | decrypt docId =>
    rw [KeyVisibility.step]
    split
    · rename_i hdecrypts
      exact { h with
        decrypted := forall_mem_cons.mpr ⟨hdecrypts.1, h.decrypted⟩ }
    · exact h
  | cache docId markDirty =>
    rw [KeyVisibility.step]
    split
    · rename_i hdecrypted
      exact { h with
        docCache := fun other hother => (Finset.mem_insert.mp hother).elim
          (fun heq => heq ▸ h.decrypted docId hdecrypted) (h.docCache other)
        decrypted := fun other hother => h.decrypted other (mem_of_mem_erase hother)
        cached := fun other hother => (Finset.mem_insert.mp hother).elim
          (fun heq => heq ▸ hordered) (h.cached other) }
    · exact h
  | abandon docId =>
    exact { h with
      decrypted := fun other hother => h.decrypted other (mem_of_mem_erase hother) }
  | hit docId =>
    rw [KeyVisibility.step]
    split
    · exact h.purgeMaterializedDocument docId
    · exact h
  | readL2 docId =>
    rw [KeyVisibility.step]
    split
    · rename_i hrecord
      exact { h with reading := forall_mem_cons.mpr ⟨h.l2 docId hrecord, h.reading⟩ }
    · exact h
  | checkL2 docId =>
    rw [KeyVisibility.step]
    split
    · rename_i hreading
      have hread : Kept docs { s with reading := s.reading.erase docId } :=
        { h with reading := fun other hother => h.reading other (mem_of_mem_erase hother) }
      simp only
      split
      · exact { hread with
          decrypted := forall_mem_cons.mpr ⟨h.reading docId hreading, h.decrypted⟩ }
      · exact hread.purgeMaterializedDocument docId
    · exact h
  | serialize docId =>
    rw [KeyVisibility.step]
    split
    · rename_i hdirty
      exact { h with writing := forall_mem_cons.mpr ⟨h.docCache docId hdirty.2, h.writing⟩ }
    · exact h
  | writeLands docId =>
    rw [KeyVisibility.step]
    split
    · rename_i hwriting
      exact { h with
        writing := fun other hother => h.writing other (mem_of_mem_erase hother)
        l2 := fun other hother => (Finset.mem_insert.mp hother).elim
          (fun heq => heq ▸ h.writing docId hwriting) (h.l2 other)
        recorded := fun other hother => (Finset.mem_insert.mp hother).elim
          (fun heq => heq ▸ hordered) (h.recorded other) }
    · exact h
  | clearDirty => exact { h with }
  | evict docId =>
    exact { h with
      docCache := fun other hother => h.docCache other (Finset.mem_of_mem_erase hother)
      cached := fun other hother => h.cached other (Finset.mem_of_mem_erase hother) }
  | removeKey keyId =>
    exact { h with
      cached := fun _ _ => .inr (.inl rfl)
      recorded := fun _ _ => .inr (.inl (.inl rfl)) }
  | startReconcile =>
    exact { h with
      cached := fun other hother => .inr (.inr (h.docCache other hother))
      recorded := fun other hother => .inr (.inl (.inr (h.l2 other hother))) }
  | reconcile docId => exact h.reconcile docId
  | scanFails =>
    exact h.of_fails fun docId _ => (hordered docId).imp_left .inr
  | reconcileFails =>
    refine h.of_fails fun docId hahead => ?_
    rcases hordered with hdue | hremaining
    · exact .inl (.inl hdue)
    · exact hahead.imp .inl (hremaining docId)
  | deleteLands docId =>
    rw [KeyVisibility.step]
    split
    · exact { h with
        l2 := fun other hother => h.l2 other (Finset.mem_of_mem_erase hother)
        recorded := fun other hother => by
          obtain ⟨hne, hother⟩ := Finset.mem_erase.mp hother
          exact (h.recorded other hother).imp_right fun hlater =>
            hlater.imp_right fun hmem => (mem_erase_of_ne hne).mpr hmem }
    · exact h
  | deleteFails docId =>
    exact { h with
      recorded := fun other hother => (h.recorded other hother).imp_right fun hlater =>
        hlater.imp_right fun hmem => (mem_erase_of_ne (ne_of_mem_of_not_mem hother
          hordered)).mpr hmem }

theorem Kept.cleansed (h : s.Kept docs) (hfinished : s.Finished) : s.Cleansed docs := by
  have hnot : ∀ docId, ¬s.Ahead docId := by
    rintro docId (hdue | hmem)
    · exact Bool.noConfusion (hfinished.due.symm.trans hdue)
    · rw [hfinished.remaining] at hmem
      exact absurd hmem (Finset.notMem_empty docId)
  refine fun docId hkey => ⟨fun hmem => ?_, fun hmem => ?_⟩
  · rcases h.cached docId hmem with hkey' | hahead
    · rw [hkey] at hkey'
      cases hkey'
    · exact hnot docId hahead
  · rcases h.recorded docId hmem with hkey' | hahead | hdeleting
    · rw [hkey] at hkey'
      cases hkey'
    · exact hnot docId hahead
    · rw [hfinished.deleting] at hdeleting
      cases hdeleting

end KeyVisibility

open KeyVisibility

/-- **Revoked plaintext does not come back** in a run where nothing lands behind the purge. -/
theorem cleansed_run (docs : KeyVisibility.Documents) (s : KeyVisibility) (hidle : s.Finished)
    (hstart : s.Cleansed docs) (hstored : s.docCache ⊆ docs.docIds ∧ s.l2 ⊆ docs.docIds)
    (events : List KeyVisibilityStep)
    (hordered : Run.AllSteps (KeyVisibility.step docs) (KeyVisibility.Ordered docs) s events)
    (hfinished : (Run.run (KeyVisibility.step docs) s events).Finished) :
    (Run.run (KeyVisibility.step docs) s events).Cleansed docs := by
  have hkept : Kept docs s := by
    refine ⟨hstored.1, by simp [hidle.decrypted], by simp [hidle.reading], by simp [hidle.writing],
      hstored.2, fun docId hmem => Or.inl ?_, fun docId hmem => Or.inl ?_⟩
    · exact Bool.not_eq_false _ ▸ fun hkey => (hstart docId hkey).1 hmem
    · exact Bool.not_eq_false _ ▸ fun hkey => (hstart docId hkey).2 hmem
  have hrun : Kept docs (Run.run (KeyVisibility.step docs) s events) :=
    Run.induction hkept (fun _ event h => h.step event) hordered
  exact hrun.cleansed hfinished

/-- A store with one document. -/
def oneDocument : KeyVisibility.Documents where
  docIds := {("d" : JSString)}
  decryptionKeyId _ := "k"

/-- It is loaded and flushed, and loses its key. -/
def orderedSteps : List KeyVisibilityStep :=
  [.decrypt "d", .cache "d" true, .serialize "d", .writeLands "d", .clearDirty, .removeKey "k",
    .startReconcile, .reconcile "d", .deleteLands "d"]

theorem cleansed_run_orderedSteps :
    (Run.run (KeyVisibility.step oneDocument) { keys := {("k" : JSString)} } orderedSteps).Cleansed
      oneDocument := by
  refine cleansed_run oneDocument { keys := {("k" : JSString)} } ⟨rfl, rfl, rfl, rfl, rfl, rfl⟩
    (fun _ _ => ⟨Finset.notMem_empty _, Finset.notMem_empty _⟩) (by simp) orderedSteps ?_
    (by constructor <;> rfl)
  exact ⟨trivial, Or.inl (by decide), trivial, Or.inl (by decide), trivial, trivial, trivial, trivial,
    trivial, trivial⟩

/-- The same, but the load caches the document after the purge. -/
def lateSteps : List KeyVisibilityStep :=
  [.decrypt "d", .removeKey "k", .startReconcile, .reconcile "d", .deleteLands "d", .cache "d" true]

/-- **A load brings the document back.** -/
theorem not_cleansed : ¬∀ (docs : KeyVisibility.Documents) (s : KeyVisibility), s.Finished →
    s.Cleansed docs → s.docCache ⊆ docs.docIds ∧ s.l2 ⊆ docs.docIds →
    ∀ events, (Run.run (KeyVisibility.step docs) s events).Finished →
      (Run.run (KeyVisibility.step docs) s events).Cleansed docs := by
  intro h
  have hcleansed := h oneDocument { keys := {("k" : JSString)} } ⟨rfl, rfl, rfl, rfl, rfl, rfl⟩
    (fun _ _ => ⟨Finset.notMem_empty _, Finset.notMem_empty _⟩) (by simp) lateSteps
    (by constructor <;> rfl)
  exact absurd (hcleansed "d" (by decide)).1 (by decide)

end MindooDB
