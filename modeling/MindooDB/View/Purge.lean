import MindooDB.View.Documents

/-!
# View/Purge — removing the documents of a key

`purgeEntriesByDecryptionKeyId` looks for its documents in the lists, by the text of their keys.
In every view that a run of batches leaves it takes out exactly the documents that `IsHit` describes
(`purge_kept`, `purge_gone`), and these are the documents of the origin and the key exactly when
their origins stand before the first colon of their keys (`purgesExactly_iff`).
-/

namespace MindooDB

namespace VirtualView

variable {view : VirtualView} {s : ViewIndex} {origin keyId : JSString} {p : EntryPath}
  {e : VirtualViewEntryData}

/-- A list that the purge selects: a document in it was encrypted with the key. -/
def HasKey (keyId : JSString) (occurrences : List Occurrence) : Prop :=
  ∃ o ∈ occurrences, o.isCategory = false ∧ o.decryptionKeyId = some keyId

/-- **A document that the purge finds**: the key it is listed under is cut to the origin, and the
list has a document of the key and one, not of the view's own, at this path. -/
def IsHit (s : ViewIndex) (origin keyId : JSString) (p : EntryPath) (e : VirtualViewEntryData) :
    Prop :=
  beforeColon e.origin = origin ∧ ∃ occurrences,
    s.entriesByDocId.get? (scopedDocIdKey e.origin e.docId) = some occurrences
      ∧ HasKey keyId occurrences
      ∧ ∃ o ∈ occurrences, o.isCategory = false ∧ o.origin ≠ ORIGIN_VIRTUALVIEW ∧ o.path = p

/-- The documents that the purge asks to be removed. -/
def docIdsToPurge (s : ViewIndex) (origin keyId : JSString) : List JSString :=
  s.entriesByDocId.toList.filterMap fun e =>
    match parseScopedDocIdKey e.1 with
    | none => none
    | some (parsedOrigin, docId) =>
      if parsedOrigin = origin ∧ e.2.any fun entry =>
          !entry.isCategory && entry.decryptionKeyId = some keyId then some docId
      else none

/-- The batch that the purge applies. -/
def purgeChange (s : ViewIndex) (origin keyId : JSString) : VirtualViewDataChange :=
  { origin := origin, removals := LinkedSet.ofList (docIdsToPurge s origin keyId) }

theorem purge_eq : view.purgeEntriesByDecryptionKeyId origin keyId s
    = if (docIdsToPurge s origin keyId).isEmpty then s
      else view.applyChanges s (purgeChange s origin keyId) := rfl

theorem any_hasKey_iff {occurrences : List Occurrence} :
    (occurrences.any fun entry => !entry.isCategory && entry.decryptionKeyId = some keyId) = true
      ↔ HasKey keyId occurrences := by
  simp [HasKey]

theorem mem_docIdsToPurge {docId : JSString} : docId ∈ docIdsToPurge s origin keyId
    ↔ ∃ key occurrences, s.entriesByDocId.get? key = some occurrences
      ∧ parseScopedDocIdKey key = some (origin, docId) ∧ HasKey keyId occurrences := by
  rw [docIdsToPurge, List.mem_filterMap]
  constructor
  · rintro ⟨⟨key, occurrences⟩, hmem, h⟩
    split at h
    · cases h
    · rename_i parsedOrigin docId' hparse
      split at h
      · rename_i hboth
        obtain ⟨rfl, hany⟩ := hboth
        obtain rfl := Option.some.inj h
        exact ⟨key, occurrences, LinkedMap.mem_toList_iff.mp hmem, hparse,
          any_hasKey_iff.mp hany⟩
      · cases h
  · rintro ⟨key, occurrences, hget, hparse, hkey⟩
    refine ⟨(key, occurrences), LinkedMap.mem_toList_iff.mpr hget, ?_⟩
    simp only [hparse]
    exact if_pos ⟨trivial, any_hasKey_iff.mpr hkey⟩

/-- What the purge takes out is listed under keys that are cut to the origin. -/
theorem mem_occurrencesToPurge {o : Occurrence} :
    o ∈ occurrencesToRemove (purgeChange s origin keyId) s
      ↔ ∃ key docId occurrences, s.entriesByDocId.get? key = some occurrences
        ∧ parseScopedDocIdKey key = some (origin, docId) ∧ HasKey keyId occurrences
        ∧ o ∈ occurrences := by
  have hdocIds : ∀ docId, docId ∈ (docIdsToRemove (purgeChange s origin keyId)).toList
      ↔ docId ∈ docIdsToPurge s origin keyId := fun docId => LinkedSet.mem_ofList
  rw [occurrencesToRemove, List.mem_flatMap]
  constructor
  · rintro ⟨docId, hdocId, ho⟩
    obtain ⟨key, occurrences, hget, hparse, hkey⟩ := mem_docIdsToPurge.mp ((hdocIds docId).mp hdocId)
    refine ⟨key, docId, occurrences, hget, hparse, hkey, ?_⟩
    change o ∈ (s.entriesByDocId.get? (scopedDocIdKey origin docId)).getD [] at ho
    rw [scopedDocIdKey_of_parse hparse, hget] at ho
    exact ho
  · rintro ⟨key, docId, occurrences, hget, hparse, hkey, ho⟩
    refine ⟨docId, (hdocIds docId).mpr (mem_docIdsToPurge.mpr ⟨key, occurrences, hget, hparse,
      hkey⟩), ?_⟩
    change o ∈ (s.entriesByDocId.get? (scopedDocIdKey origin docId)).getD []
    rw [scopedDocIdKey_of_parse hparse, hget]
    exact ho

/-- **The purge takes out the documents it finds.** -/
theorem mem_takenPaths_purge_iff (hs : Settled view.env s) (hmade : view.Made s)
    (hget : s.entries.get? p = some e) (hdoc : e.isCategory = false) :
    p ∈ takenPaths (occurrencesToRemove (purgeChange s origin keyId) s)
      ↔ IsHit s origin keyId p e := by
  have hscoped : ∃ entryKey parent, p = entryKey :: parent
      ∧ entryKey.scopedDocId = scopedDocIdKey e.origin e.docId := by
    obtain ⟨doc, place, -, hpath, hrenumbered⟩ := hmade p e hget hdoc
    obtain ⟨ho, hd⟩ := IsListed.origin hrenumbered
    exact ⟨_, place, hpath, ho ▸ hd ▸ rfl⟩
  obtain ⟨entryKey, parent, rfl, hscoped⟩ := hscoped
  rw [mem_takenPaths]
  constructor
  · rintro ⟨o, ho, hodoc, horigin, hpath⟩
    obtain ⟨key, docId, occurrences, hlist, hparse, hkey, hmem⟩ := mem_occurrencesToPurge.mp ho
    obtain ⟨⟨entryKey', parent', hpath', -, hkey'⟩, -⟩ := hs.lists key occurrences hlist o hmem hodoc
    obtain ⟨rfl, rfl⟩ := List.cons.inj (hpath.symm.trans hpath')
    obtain rfl := hkey'.symm.trans hscoped
    obtain ⟨rest, hcut⟩ := parseScopedDocIdKey_scopedDocIdKey e.origin e.docId
    obtain ⟨rfl, -⟩ := Prod.mk.inj (Option.some.inj (hcut.symm.trans hparse))
    exact ⟨rfl, occurrences, hlist, hkey, o, hmem, hodoc, horigin, hpath⟩
  · rintro ⟨rfl, occurrences, hlist, hkey, o, hmem, hodoc, horigin, hpath⟩
    obtain ⟨rest, hcut⟩ := parseScopedDocIdKey_scopedDocIdKey e.origin e.docId
    exact ⟨o, mem_occurrencesToPurge.mpr ⟨_, rest, occurrences, hlist, hcut, hkey, hmem⟩, hodoc,
      horigin, hpath⟩

/-- A document that the purge does not find is only renumbered. -/
theorem purge_kept (hs : Settled view.env s) (hmade : view.Made s)
    (hget : s.entries.get? p = some e) (hdoc : e.isCategory = false)
    (hmiss : ¬IsHit s origin keyId p e) :
    ∃ e', (view.purgeEntriesByDecryptionKeyId origin keyId s).entries.get? p = some e'
      ∧ Renumbered e e' := by
  rw [purge_eq]
  split
  · exact ⟨e, hget, Renumbered.refl e⟩
  · exact renumbered_of_kept hs hget hdoc fun hmem =>
      hmiss ((mem_takenPaths_purge_iff hs hmade hget hdoc).mp hmem)

/-- A document after the purge was there before, and the purge has not found it. -/
theorem purge_gone (hs : Settled view.env s) (hmade : view.Made s) {e' : VirtualViewEntryData}
    (hget : (view.purgeEntriesByDecryptionKeyId origin keyId s).entries.get? p = some e')
    (hdoc : e'.isCategory = false) :
    ∃ e, s.entries.get? p = some e ∧ Renumbered e e' ∧ ¬IsHit s origin keyId p e := by
  rw [purge_eq] at hget
  split at hget
  · rename_i hempty
    refine ⟨e', hget, Renumbered.refl e', fun hhit => ?_⟩
    obtain ⟨o, ho, -⟩ := mem_takenPaths.mp
      ((mem_takenPaths_purge_iff hs hmade hget hdoc).mpr hhit)
    obtain ⟨key, docId, occurrences, hlist, hparse, hkey, -⟩ := mem_occurrencesToPurge.mp ho
    have hmem : docId ∈ docIdsToPurge s origin keyId :=
      mem_docIdsToPurge.mpr ⟨key, occurrences, hlist, hparse, hkey⟩
    rw [List.isEmpty_iff.mp hempty] at hmem
    cases hmem
  · rcases kept_or_placed hs hget hdoc with ⟨hkept, e, he, hrenumbered⟩ | ⟨doc, hmem, -⟩
    · exact ⟨e, he, hrenumbered, fun hhit => hkept ((mem_takenPaths_purge_iff hs hmade he
        (hrenumbered.same.isCategory.symm.trans hdoc)).mpr hhit)⟩
    · cases hmem

/-! ## Which documents are found -/

/-- All documents of a list have one key. -/
theorem Lists.hasKey_iff (hl : view.Lists s) {key : JSString} {occurrences : List Occurrence}
    (hget : s.entriesByDocId.get? key = some occurrences) {o : Occurrence} (ho : o ∈ occurrences)
    (hdoc : o.isCategory = false) :
    HasKey keyId occurrences ↔ o.decryptionKeyId = some keyId := by
  refine ⟨fun h => ?_, fun h => ⟨o, ho, hdoc, h⟩⟩
  rcases hl.listed key occurrences hget with ⟨doc, -, rfl⟩ | hcategories
  · obtain ⟨o', ho', -, hkey⟩ := h
    obtain ⟨place, -, rfl⟩ := List.mem_map.mp ho
    obtain ⟨place', -, rfl⟩ := List.mem_map.mp ho'
    exact hkey
  · exact nomatch hdoc.symm.trans (hcategories o ho)

/-- **A document of another origin than the view's own** is found by its key and what stands before
the first colon of its origin. -/
theorem isHit_iff (hl : view.Lists s) (hget : s.entries.get? p = some e)
    (hdoc : e.isCategory = false) (horigin : e.origin ≠ ORIGIN_VIRTUALVIEW) :
    IsHit s origin keyId p e ↔ beforeColon e.origin = origin ∧ e.decryptionKeyId = some keyId := by
  obtain ⟨doc, place, hplace, hpath, hrenumbered, hlist⟩ := hl.find p e hget hdoc horigin
  obtain ⟨ho, hd⟩ := IsListed.origin hrenumbered
  have hmem : view.occurrenceAt doc place ∈ (view.docPlaces doc).map (view.occurrenceAt doc) :=
    List.mem_map_of_mem hplace
  have hkey : HasKey keyId _ ↔ doc.decryptionKeyId = some keyId := hl.hasKey_iff hlist hmem rfl
  rw [ho, hd] at hlist
  refine and_congr_right fun _ => ?_
  have hsame : e.decryptionKeyId = doc.decryptionKeyId := hrenumbered.same.decryptionKeyId
  rw [hsame]
  constructor
  · rintro ⟨occurrences, hget', hhas, -⟩
    obtain rfl := Option.some.inj (hlist.symm.trans hget')
    exact hkey.mp hhas
  · intro h
    exact ⟨_, hlist, hkey.mpr h, _, hmem, rfl, fun heq => horigin (ho ▸ heq), hpath.symm⟩

/-- A document of the view's own origin stands in the place of one that is listed there. -/
def IsShadowed (s : ViewIndex) (keyId : JSString) (p : EntryPath) (e : VirtualViewEntryData) :
    Prop :=
  ∃ occurrences, s.entriesByDocId.get? (scopedDocIdKey e.origin e.docId) = some occurrences
    ∧ ∃ o ∈ occurrences, o.isCategory = false ∧ o.origin ≠ ORIGIN_VIRTUALVIEW ∧ o.path = p
      ∧ o.decryptionKeyId = some keyId

theorem beforeColon_virtualview : beforeColon ORIGIN_VIRTUALVIEW = ORIGIN_VIRTUALVIEW := by decide

/-- A document of the view's own origin is found only when it is shadowed. -/
theorem isHit_own_iff (hl : view.Lists s) (horigin : e.origin = ORIGIN_VIRTUALVIEW) :
    IsHit s origin keyId p e ↔ ORIGIN_VIRTUALVIEW = origin ∧ IsShadowed s keyId p e := by
  rw [IsHit, IsShadowed, horigin, beforeColon_virtualview]
  refine and_congr_right fun _ => exists_congr fun occurrences => and_congr_right fun hlist => ?_
  constructor
  · rintro ⟨hkey, o, ho, hodoc, hother, hpath⟩
    exact ⟨o, ho, hodoc, hother, hpath, (hl.hasKey_iff hlist ho hodoc).mp hkey⟩
  · rintro ⟨o, ho, hodoc, hother, hpath, hkey⟩
    exact ⟨(hl.hasKey_iff hlist ho hodoc).mpr hkey, o, ho, hodoc, hother, hpath⟩

/-! ## Purging exactly -/

variable (view) in
/-- **Purging an origin's documents of a key removes them and leaves the others.** -/
structure PurgesExactly (origin keyId : JSString) (s : ViewIndex) : Prop where
  purged : ∀ p e', (view.purgeEntriesByDecryptionKeyId origin keyId s).entries.get? p = some e' →
    e'.isCategory = false → ¬(e'.origin = origin ∧ e'.decryptionKeyId = some keyId)
  kept : ∀ p e, s.entries.get? p = some e → e.isCategory = false →
    ¬(e.origin = origin ∧ e.decryptionKeyId = some keyId) →
    ∃ e', (view.purgeEntriesByDecryptionKeyId origin keyId s).entries.get? p = some e'
      ∧ Renumbered e e'

/-- **The origins can be read off the keys**: of the documents of a key, those have the origin whose
own origin is it up to its first colon; and of the view's own documents, those have the key that
stand in the place of a listed document of the key. -/
structure ReadsOrigin (s : ViewIndex) (origin keyId : JSString) : Prop where
  others : ∀ p e, s.entries.get? p = some e → e.isCategory = false →
    e.origin ≠ ORIGIN_VIRTUALVIEW → e.decryptionKeyId = some keyId →
    (beforeColon e.origin = origin ↔ e.origin = origin)
  own : origin = ORIGIN_VIRTUALVIEW → ∀ p e, s.entries.get? p = some e → e.isCategory = false →
    e.origin = ORIGIN_VIRTUALVIEW → (e.decryptionKeyId = some keyId ↔ IsShadowed s keyId p e)

/-- The purge is exact when it finds the right documents. -/
theorem purgesExactly_iff_hits (hs : Settled view.env s) (hmade : view.Made s) :
    view.PurgesExactly origin keyId s ↔ ∀ p e, s.entries.get? p = some e → e.isCategory = false →
      (IsHit s origin keyId p e ↔ e.origin = origin ∧ e.decryptionKeyId = some keyId) := by
  constructor
  · intro h p e hget hdoc
    refine ⟨fun hhit => ?_, fun hboth => ?_⟩
    · by_contra hother
      obtain ⟨e', he', hrenumbered⟩ := h.kept p e hget hdoc hother
      obtain ⟨e₀, he₀, -, hmiss⟩ := purge_gone hs hmade he'
        (hrenumbered.same.isCategory.trans hdoc)
      obtain rfl := Option.some.inj (hget.symm.trans he₀)
      exact hmiss hhit
    · by_contra hmiss
      obtain ⟨e', he', hrenumbered⟩ := purge_kept hs hmade hget hdoc hmiss
      refine h.purged p e' he' (hrenumbered.same.isCategory.trans hdoc) ?_
      rw [hrenumbered.same.origin, hrenumbered.same.decryptionKeyId]
      exact hboth
  · intro h
    refine ⟨fun p e' hget hdoc hboth => ?_, fun p e hget hdoc hother => ?_⟩
    · obtain ⟨e, he, hrenumbered, hmiss⟩ := purge_gone hs hmade hget hdoc
      rw [hrenumbered.same.origin, hrenumbered.same.decryptionKeyId] at hboth
      exact hmiss ((h p e he (hrenumbered.same.isCategory.symm.trans hdoc)).mpr hboth)
    · exact purge_kept hs hmade hget hdoc fun hhit => hother ((h p e hget hdoc).mp hhit)

end VirtualView

open VirtualView

/-- **After any run, purging a key of an origin is exact** exactly when the origins can be read off
the keys. -/
theorem purgesExactly_iff (view : VirtualView) (changes : List VirtualViewDataChange)
    (origin keyId : JSString) :
    view.PurgesExactly origin keyId (view.run changes)
      ↔ ReadsOrigin (view.run changes) origin keyId := by
  have hl : view.Lists (view.run changes) := lists_run changes
  rw [purgesExactly_iff_hits (settled_run changes) (made_run changes)]
  constructor
  · intro h
    refine ⟨fun p e hget hdoc horigin hkey => ?_, fun hown p e hget hdoc horigin => ?_⟩
    · have hhit := h p e hget hdoc
      rw [isHit_iff hl hget hdoc horigin] at hhit
      simpa [hkey] using hhit
    · have hhit := h p e hget hdoc
      rw [isHit_own_iff hl horigin, horigin, hown] at hhit
      simpa using hhit.symm
  · intro h p e hget hdoc
    by_cases horigin : e.origin = ORIGIN_VIRTUALVIEW
    · rw [isHit_own_iff hl horigin, horigin]
      refine and_congr_right fun hown => ?_
      exact (h.own hown.symm p e hget hdoc horigin).symm
    · rw [isHit_iff hl hget hdoc horigin]
      exact and_congr_left fun hkey => h.others p e hget hdoc horigin hkey

/-! ## An origin with a colon -/

/-- A view without columns. -/
def flatView : VirtualView where
  columns := []
  categorizationStyle := .CATEGORY_THEN_DOCUMENT
  isAccepted _ _ _ := true
  env := plainRuntime

/-- A document of the origin `a:b`, encrypted with the key `k`. -/
def ofColonOrigin : List VirtualViewDataChange :=
  [{ origin := "a:b", additions := (∅ : LinkedMap JSString EntryData).set "d" ⟨∅, some "k"⟩ }]

/-- Its key is cut to the origin `a`, so the purge of `a:b` does not find it. -/
theorem not_purgesExactly_ofColonOrigin :
    ¬flatView.PurgesExactly "a:b" "k" (flatView.run ofColonOrigin) := by
  intro h
  have hstays : ((flatView.purgeEntriesByDecryptionKeyId "a:b" "k"
      (flatView.run ofColonOrigin)).entries.get? [⟨false, [.endArray], "a:b:d"⟩]).map
        (fun e => (e.isCategory, e.origin, e.decryptionKeyId))
      = some (false, ("a:b" : JSString), some ("k" : JSString)) := by
    decide
  obtain ⟨e, he, hboth⟩ := Option.map_eq_some_iff.mp hstays
  obtain ⟨hdoc, horigin, hkey⟩ : e.isCategory = false ∧ e.origin = _ ∧ e.decryptionKeyId = _ := by
    simpa using hboth
  exact h.purged _ e he hdoc ⟨horigin, hkey⟩

end MindooDB
