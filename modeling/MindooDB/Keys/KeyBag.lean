import MindooDB.Lib.CompareSort
import MindooDB.Lib.JSStringParts
import MindooDB.Lib.LinkedMap
import MindooDB.Lib.Run

/-!
# Keys/KeyBag — the key bag and its feed of changes

`core/keys/KeyBag.ts`: versions of keys under joined ids, and an event for each change of them.
What a call does behind its `await` is one step here, so that calls go on in any order.

From any point on, the feed names every key whose versions differ from what they were then, and the
last event for a key tells what is left of it (`noticed_run`).  That holds of the keys that no
`load` has changed since: `load` replaces the keys silently.
-/

namespace MindooDB

open JSString LinkedMap List Run

/-- A version of a key. -/
structure KeyEntry where
  key : List UInt8
  createdAt : Option ℤ
  addedAt : Option ℤ
  deriving DecidableEq

inductive KeyBagChangeAction
  | add
  | remove
  deriving DecidableEq

/-- What happened to a key, and how many versions of it are left. -/
structure KeyBagChangeEvent where
  changeSeq : ℕ
  type : JSString
  tenantId : JSString
  keyId : JSString
  action : KeyBagChangeAction
  versionsRemaining : ℕ
  hasKey : Bool
  deriving DecidableEq

structure KeyBag where
  keys : LinkedMap JSString (List KeyEntry) := ∅
  keyChanges : List KeyBagChangeEvent := []
  nextKeyChangeSeq : ℕ := 1

def DEFAULT_TENANT_KEY_ID : JSString := "default"

/-- `type:tenantId:id`. -/
def scopedKeyId (type tenantId id : JSString) : JSString :=
  type ++ ((":" : JSString) ++ (tenantId ++ ((":" : JSString) ++ id)))

/-- `none` is an exception. -/
def buildScopedKeyId (type tenantId id : JSString) : Option JSString :=
  if id.isEmpty then none else some (scopedKeyId type tenantId id)

namespace KeyBag

variable (bag : KeyBag)

/-! ## The feed -/

def getLatestChangeCursor : Option ℕ := bag.keyChanges.getLast?.map (·.changeSeq)

/-- The events behind a cursor, all of them without one. -/
def iterateChangesSince (cursor : Option ℕ) : List KeyBagChangeEvent :=
  bag.keyChanges.filter fun event => event.changeSeq > cursor.getD 0

/-- An event joins the feed, under the next number. -/
def recordKeyChange (type tenantId keyId : JSString) (action : KeyBagChangeAction)
    (versionsRemaining : ℕ) : KeyBag := { bag with
  keyChanges := bag.keyChanges ++
    [{ changeSeq := bag.nextKeyChangeSeq, type, tenantId, keyId, action, versionsRemaining
       hasKey := versionsRemaining > 0 }]
  nextKeyChangeSeq := bag.nextKeyChangeSeq + 1 }

/-! ## Changes -/

/-- `this.keys.get(scopedKeyId) || []`. -/
def entries (scopedKeyId : JSString) : List KeyEntry := (bag.keys.get? scopedKeyId).getD []

/-- An entry, unless its key is there. -/
def addEntry (type tenantId id : JSString) (entry : KeyEntry) : KeyBag :=
  match buildScopedKeyId type tenantId id with
  | none => bag
  | some scopedKeyId =>
    let keyEntries := bag.entries scopedKeyId
    if keyEntries.any fun existing => existing.key = entry.key then bag
    else
      let keyEntries := keyEntries ++ [entry]
      { bag with keys := bag.keys.set scopedKeyId keyEntries }.recordKeyChange type tenantId id .add
        keyEntries.length

/-- A version of a key, added `now` where nothing says when. -/
def set (type tenantId id : JSString) (key : List UInt8) (createdAt addedAt : Option ℤ) (now : ℤ) :
    KeyBag :=
  bag.addEntry type tenantId id { key, createdAt, addedAt := addedAt.getD now }

/-- All versions of a key go.  Where there are none, no event tells of it. -/
def deleteKey (type tenantId id : JSString) : KeyBag :=
  match buildScopedKeyId type tenantId id with
  | none => bag
  | some scopedKeyId =>
    if (bag.entries scopedKeyId).length = 0 then bag
    else
      { bag with keys := bag.keys.delete scopedKeyId }.recordKeyChange type tenantId id .remove 0

/-- The newest first, each with its place. -/
def sortKeyEntries (entries : List KeyEntry) : List (KeyEntry × ℕ) :=
  sortBy (fun a b => b.1.createdAt.getD 0 - a.1.createdAt.getD 0) entries.zipIdx

/-- The version at a place of the sorted listing goes, and with the last one the key. -/
def deleteKeyVersion (type tenantId id : JSString) (versionIndex : ℕ) : KeyBag :=
  match buildScopedKeyId type tenantId id with
  | none => bag
  | some scopedKeyId =>
    let keyEntries := bag.entries scopedKeyId
    match (sortKeyEntries keyEntries)[versionIndex]? with
    | none => bag
    | some (_, place) =>
      let remainingEntries := keyEntries.eraseIdx place
      if remainingEntries.length = 0 then
        { bag with keys := bag.keys.delete scopedKeyId }.recordKeyChange type tenantId id .remove 0
      else
        { bag with keys := bag.keys.set scopedKeyId remainingEntries }.recordKeyChange type tenantId
          id .remove remainingEntries.length

/-- What stands before the first colon, before the second, and behind it. -/
def splitScopedKeyId (scopedKeyId : JSString) : Option (JSString × JSString × JSString) :=
  match scopedKeyId.indexOf ":" with
  | none => none
  | some firstColon =>
    let rest := scopedKeyId.drop (firstColon + 1)
    match rest.indexOf ":" with
    | none => none
    | some secondColon =>
      some (scopedKeyId.take firstColon, rest.take secondColon, rest.drop (secondColon + 1))

/-- The loop body of `deleteTenantKeys`. -/
def deleteIfOf (tenantId : JSString) (bag : KeyBag) (scopedKeyId : JSString) : KeyBag :=
  match splitScopedKeyId scopedKeyId with
  | none => bag
  | some (type, keyTenantId, id) =>
    if keyTenantId = tenantId then
      { bag with keys := bag.keys.delete scopedKeyId }.recordKeyChange type tenantId id .remove 0
    else bag

/-- Every key of a tenant goes, with an event of its own. -/
def deleteTenantKeys (tenantId : JSString) : KeyBag := bag.keys.keys.foldl (deleteIfOf tenantId) bag

/-! ## Loading -/

/-- An entry with what another one says of its key. -/
def mergeEntry (existing entry : KeyEntry) : KeyEntry := { existing with
  createdAt :=
    if entry.createdAt.getD 0 > existing.createdAt.getD 0 then entry.createdAt
    else existing.createdAt
  addedAt :=
    match entry.addedAt, existing.addedAt with
    | some added, some existingAdded =>
      if added < existingAdded then some added else existing.addedAt
    | some added, none => some added
    | none, _ => existing.addedAt }

/-- One entry a key, where its first one stood. -/
def dedupeKeyEntries (entries : List KeyEntry) : List KeyEntry :=
  entries.foldl (fun unique entry =>
    if unique.any fun candidate => candidate.key = entry.key then
      unique.map fun candidate =>
        if candidate.key = entry.key then mergeEntry candidate entry else candidate
    else unique ++ [entry]) []

/-- What older bags call `tenant:id` is the default key of that tenant. -/
def normalizeLoadedScopedKeyId (id : JSString) : JSString :=
  if !id.startsWith "tenant:" then id
  else
    let tenantId := id.drop 7
    if tenantId.isEmpty then id else scopedKeyId "doc" tenantId DEFAULT_TENANT_KEY_ID

/-- The keys of a bag that was saved. -/
def loadedKeys (mapArray : List (JSString × List KeyEntry)) : LinkedMap JSString (List KeyEntry) :=
  mapArray.foldl (fun loaded item =>
    let normalizedScopedKeyId := normalizeLoadedScopedKeyId item.1
    let existingEntries := (loaded.get? normalizedScopedKeyId).getD []
    loaded.set normalizedScopedKeyId (dedupeKeyEntries (existingEntries ++ item.2))) ∅

/-- The keys are replaced, and the feed says nothing of it. -/
def load (mapArray : List (JSString × List KeyEntry)) : KeyBag :=
  { bag with keys := loadedKeys mapArray }

end KeyBag

/-! ## Calls -/

/-- A call that awaits something. -/
inductive KeyBagCall
  | decryptAndImportKey (tenantId id : JSString) (createdAt : Option ℤ)
  | createDocKey (tenantId keyId : JSString) (createdAt : Option ℤ)
  | load
  deriving DecidableEq

/-- What it has awaited. -/
inductive KeyBagResult
  | keyBytes (bytes : List UInt8)
  | mapArray (items : List (JSString × List KeyEntry))

/-- A bag and the calls that wait. -/
structure KeyBagSession where
  bag : KeyBag := {}
  pending : List KeyBagCall := []

namespace KeyBagSession

inductive Event
  | set (tenantId id : JSString) (key : List UInt8) (createdAt addedAt : Option ℤ) (now : ℤ)
  | deleteKey (tenantId id : JSString)
  | deleteKeyVersion (tenantId id : JSString) (versionIndex : ℕ)
  | deleteTenantKeys (tenantId : JSString)
  | call (call : KeyBagCall)
  /-- A call goes on; without a result, it throws. -/
  | resume (index : ℕ) (result : Option KeyBagResult) (now : ℤ)

/-- A call behind its `await`. -/
def complete (bag : KeyBag) (call : KeyBagCall) (result : KeyBagResult) (now : ℤ) : KeyBag :=
  match call, result with
  | .decryptAndImportKey tenantId id createdAt, .keyBytes key =>
    bag.addEntry "doc" tenantId id { key, createdAt, addedAt := now }
  | .createDocKey tenantId keyId createdAt, .keyBytes key =>
    bag.set "doc" tenantId keyId key createdAt none now
  | .load, .mapArray items => bag.load items
  | _, _ => bag

/-- One call, or what a waiting one does when it goes on. -/
def step (session : KeyBagSession) : Event → KeyBagSession
  | .set tenantId id key createdAt addedAt now =>
    { session with bag := session.bag.set "doc" tenantId id key createdAt addedAt now }
  | .deleteKey tenantId id => { session with bag := session.bag.deleteKey "doc" tenantId id }
  | .deleteKeyVersion tenantId id versionIndex =>
    { session with bag := session.bag.deleteKeyVersion "doc" tenantId id versionIndex }
  | .deleteTenantKeys tenantId => { session with bag := session.bag.deleteTenantKeys tenantId }
  | .call call => { session with pending := session.pending ++ [call] }
  | .resume index result now =>
    match session.pending[index]? with
    | none => session
    | some call =>
      { bag := match result with
          | none => session.bag
          | some result => complete session.bag call result now
        pending := session.pending.eraseIdx index }

end KeyBagSession

/-! ## Joined ids -/

theorem units_scopedKeyId (type tenantId id : JSString) : (scopedKeyId type tenantId id).units
    = type.units ++ 0x3A :: (tenantId.units ++ 0x3A :: id.units) := rfl

/-- **A joined id tells its parts**, if only the last may have a colon. -/
theorem scopedKeyId_inj {type type' tenantId tenantId' id id' : JSString}
    (htype : 0x3A ∉ type.units) (htype' : 0x3A ∉ type'.units) (htenant : 0x3A ∉ tenantId.units)
    (htenant' : 0x3A ∉ tenantId'.units)
    (h : scopedKeyId type tenantId id = scopedKeyId type' tenantId' id') :
    type = type' ∧ tenantId = tenantId' ∧ id = id' := by
  have hunits := congrArg units h
  rw [units_scopedKeyId, units_scopedKeyId] at hunits
  obtain ⟨htypes, hrest⟩ := separator_inj htype htype' hunits
  obtain ⟨htenants, hids⟩ := separator_inj htenant htenant' hrest
  exact ⟨units_injective htypes, units_injective htenants, units_injective hids⟩

/-- The parts that `deleteTenantKeys` finds. -/
theorem splitScopedKeyId_spec {scopedId type tenantId id : JSString}
    (h : KeyBag.splitScopedKeyId scopedId = some (type, tenantId, id)) :
    scopedId = scopedKeyId type tenantId id ∧ 0x3A ∉ type.units ∧ 0x3A ∉ tenantId.units := by
  have hcolon : (":" : JSString) = ⟨[0x3A]⟩ := by decide
  unfold KeyBag.splitScopedKeyId at h
  rw [hcolon] at h
  have hfirst := indexOf_unit 0x3A scopedId
  cases hindex : scopedId.indexOf ⟨[0x3A]⟩ with
  | none =>
    rw [hindex] at h
    exact nomatch h
  | some firstColon =>
    rw [hindex] at h hfirst
    dsimp only at h hfirst
    have hsecond := indexOf_unit 0x3A (scopedId.drop (firstColon + 1))
    cases hindex' : (scopedId.drop (firstColon + 1)).indexOf ⟨[0x3A]⟩ with
    | none =>
      rw [hindex'] at h
      exact nomatch h
    | some secondColon =>
      rw [hindex'] at h hsecond
      dsimp only at h hsecond
      obtain ⟨rfl, htail⟩ := Prod.mk.inj (Option.some.inj h)
      obtain ⟨rfl, rfl⟩ := Prod.mk.inj htail
      refine ⟨units_injective ?_, hfirst.2, hsecond.2⟩
      rw [units_scopedKeyId, ← hsecond.1]
      exact hfirst.1

/-! ## What the feed tells of a key -/

namespace KeyBag

section Tells

variable (tenantId keyId : JSString)

/-- The versions of a key. -/
def versions (bag : KeyBag) : List (List UInt8) :=
  (bag.entries (scopedKeyId "doc" tenantId keyId)).map (·.key)

/-- An event for a key. -/
def IsAbout (event : KeyBagChangeEvent) : Prop :=
  event.type = "doc" ∧ event.tenantId = tenantId ∧ event.keyId = keyId

instance : DecidablePred (IsAbout tenantId keyId) := fun event =>
  inferInstanceAs (Decidable (event.type = "doc" ∧ _ ∧ _))

/-- The last event for a key. -/
def lastAbout (events : List KeyBagChangeEvent) : Option KeyBagChangeEvent :=
  (events.filter fun event => IsAbout tenantId keyId event).getLast?

/-- What an event tells is so. -/
def IsCurrent (bag : KeyBag) (event : KeyBagChangeEvent) : Prop :=
  event.versionsRemaining = (versions tenantId keyId bag).length
    ∧ event.hasKey = decide (0 < (versions tenantId keyId bag).length)

/-- **What happened to a key is told**: there is an event for it, the last of which is current, or
its versions are what they were. -/
def Tells (before now : KeyBag) (events : List KeyBagChangeEvent) : Prop :=
  match lastAbout tenantId keyId events with
  | none => (versions tenantId keyId before).Perm (versions tenantId keyId now)
  | some event => IsCurrent tenantId keyId now event

/-- A later bag, and the events since. -/
def Follows (before now : KeyBag) : Prop :=
  ∃ events, now.keyChanges = before.keyChanges ++ events ∧ Tells tenantId keyId before now events

end Tells

variable {tenantId keyId : JSString} {bag bag' bag'' : KeyBag}

theorem Follows.refl (bag : KeyBag) : Follows tenantId keyId bag bag :=
  ⟨[], (append_nil _).symm, List.Perm.refl _⟩

theorem lastAbout_append (events events' : List KeyBagChangeEvent) :
    lastAbout tenantId keyId (events ++ events')
      = (lastAbout tenantId keyId events').or (lastAbout tenantId keyId events) := by
  rw [lastAbout, filter_append, getLast?_append]
  rfl

theorem Follows.trans (h : Follows tenantId keyId bag bag')
    (h' : Follows tenantId keyId bag' bag'') : Follows tenantId keyId bag bag'' := by
  obtain ⟨events, hchanges, htells⟩ := h
  obtain ⟨events', hchanges', htells'⟩ := h'
  refine ⟨events ++ events', by rw [hchanges', hchanges, List.append_assoc], ?_⟩
  rw [Tells, lastAbout_append]
  rw [Tells] at htells htells'
  cases hlast' : lastAbout tenantId keyId events' with
  | some event =>
    rw [hlast'] at htells'
    exact htells'
  | none =>
    rw [hlast'] at htells'
    cases hlast : lastAbout tenantId keyId events with
    | some event =>
      rw [hlast] at htells
      obtain ⟨hremaining, hkey⟩ := htells
      exact ⟨hremaining.trans htells'.length_eq, by rw [hkey, htells'.length_eq]⟩
    | none =>
      rw [hlast] at htells
      exact htells.trans htells'

theorem lastAbout_singleton (event : KeyBagChangeEvent) : lastAbout tenantId keyId [event]
    = if IsAbout tenantId keyId event then some event else none := by
  rw [lastAbout, filter_singleton]
  split_ifs with h
  · rw [decide_eq_true h]
    rfl
  · rw [decide_eq_false h]
    rfl

theorem colon_notMem_doc : (0x3A : Fin 65536) ∉ ("doc" : JSString).units := by decide

/-! ## Changes that are recorded -/

/-- The keys of every joined id differ. -/
def Distinct (keys : LinkedMap JSString (List KeyEntry)) : Prop :=
  ∀ scopedId, (((keys.get? scopedId).getD []).map (·.key)).Nodup

/-- A bag after changes for some tenants, each of one joined id and with its event. -/
inductive Recorded (tenants : JSString → Prop) (bag : KeyBag) : KeyBag → Prop
  | refl : Recorded tenants bag bag
  | change {bag' : KeyBag} {keys : LinkedMap JSString (List KeyEntry)} {type tenantId id : JSString}
      {action : KeyBagChangeAction} {remaining : ℕ} (h : Recorded tenants bag bag')
      (htype : 0x3A ∉ type.units) (htenant : tenants tenantId)
      (hframe : ∀ scopedId, scopedId ≠ scopedKeyId type tenantId id →
        keys.get? scopedId = bag'.keys.get? scopedId)
      (hdistinct : Distinct bag'.keys → Distinct keys)
      (hremaining : remaining = ((keys.get? (scopedKeyId type tenantId id)).getD []).length) :
      Recorded tenants bag ({ bag' with keys }.recordKeyChange type tenantId id action remaining)

section Recorded

variable {tenants : JSString → Prop} {tenantId' id : JSString}

variable {entries : List KeyEntry}

theorem distinct_set {keys : LinkedMap JSString (List KeyEntry)} (h : Distinct keys)
    (scopedId : JSString) (hentries : (entries.map (·.key)).Nodup) :
    Distinct (keys.set scopedId entries) := by
  intro scopedId'
  rw [get?_set]
  split_ifs
  · exact hentries
  · exact h scopedId'

theorem distinct_delete {keys : LinkedMap JSString (List KeyEntry)} (h : Distinct keys)
    (scopedId : JSString) : Distinct (keys.delete scopedId) := by
  intro scopedId'
  rw [get?_delete]
  split_ifs
  · exact nodup_nil
  · exact h scopedId'

/-- An entry whose key is new. -/
theorem nodup_keys_append {entry : KeyEntry} (h : (entries.map (·.key)).Nodup)
    (hnew : ¬ (entries.any fun existing => existing.key = entry.key) = true) :
    ((entries ++ [entry]).map (·.key)).Nodup := by
  rw [map_append, map_singleton, nodup_append_comm]
  refine nodup_cons.mpr ⟨fun hmem => hnew ?_, h⟩
  obtain ⟨existing, hexisting, hkey⟩ := mem_map.mp hmem
  exact any_eq_true.mpr ⟨existing, hexisting, decide_eq_true hkey⟩

/-- A key gets other entries. -/
theorem Recorded.set (h : Recorded tenants bag bag') (htenant : tenants tenantId')
    (action : KeyBagChangeAction) (hentries : Distinct bag'.keys → (entries.map (·.key)).Nodup) :
    Recorded tenants bag ({ bag' with
      keys := bag'.keys.set (scopedKeyId "doc" tenantId' id) entries }.recordKeyChange
        "doc" tenantId' id action entries.length) := by
  refine h.change colon_notMem_doc htenant (fun scopedId hne => ?_) (fun hdistinct => ?_) ?_
  · exact get?_set_of_ne bag'.keys entries hne
  · exact distinct_set hdistinct _ (hentries hdistinct)
  · rw [get?_set_self, Option.getD_some]

/-- A joined id is removed. -/
theorem Recorded.delete (h : Recorded tenants bag bag') {type : JSString}
    (htype : 0x3A ∉ type.units) (htenant : tenants tenantId') :
    Recorded tenants bag ({ bag' with
      keys := bag'.keys.delete (scopedKeyId type tenantId' id) }.recordKeyChange
        type tenantId' id .remove 0) := by
  refine h.change htype htenant (fun scopedId hne => ?_) (fun hdistinct => ?_) ?_
  · exact get?_delete_of_ne bag'.keys hne
  · exact distinct_delete hdistinct _
  · rw [get?_delete_self]
    rfl

theorem recorded_addEntry (htenant : tenants tenantId') (entry : KeyEntry) :
    Recorded tenants bag (bag.addEntry "doc" tenantId' id entry) := by
  unfold addEntry buildScopedKeyId
  by_cases hid : id.isEmpty = true
  · rw [if_pos hid]
    exact .refl
  · rw [if_neg hid]
    dsimp only
    split_ifs with hany
    · exact .refl
    · exact Recorded.refl.set htenant .add fun hdistinct => nodup_keys_append (hdistinct _) hany

theorem recorded_deleteKey (htenant : tenants tenantId') :
    Recorded tenants bag (bag.deleteKey "doc" tenantId' id) := by
  unfold deleteKey buildScopedKeyId
  by_cases hid : id.isEmpty = true
  · rw [if_pos hid]
    exact .refl
  · rw [if_neg hid]
    dsimp only
    split_ifs
    · exact .refl
    · exact Recorded.refl.delete colon_notMem_doc htenant

theorem recorded_deleteKeyVersion (htenant : tenants tenantId') (versionIndex : ℕ) :
    Recorded tenants bag (bag.deleteKeyVersion "doc" tenantId' id versionIndex) := by
  unfold deleteKeyVersion buildScopedKeyId
  by_cases hid : id.isEmpty = true
  · rw [if_pos hid]
    exact .refl
  · rw [if_neg hid]
    dsimp only
    cases (sortKeyEntries (bag.entries (scopedKeyId "doc" tenantId' id)))[versionIndex]? with
    | none => exact .refl
    | some target =>
      dsimp only
      split_ifs
      · exact Recorded.refl.delete colon_notMem_doc htenant
      · refine Recorded.refl.set htenant .remove fun hdistinct => ?_
        exact (hdistinct _).sublist ((eraseIdx_sublist _ _).map _)

theorem Recorded.deleteIfOf (h : Recorded tenants bag bag')
    (htenant : 0x3A ∉ tenantId'.units → tenants tenantId') (scopedId : JSString) :
    Recorded tenants bag (deleteIfOf tenantId' bag' scopedId) := by
  unfold KeyBag.deleteIfOf
  cases hsplit : splitScopedKeyId scopedId with
  | none => exact h
  | some parts =>
    obtain ⟨type, keyTenantId, id⟩ := parts
    dsimp only
    split_ifs with heq
    · obtain ⟨rfl, htype, hkeyTenant⟩ := splitScopedKeyId_spec hsplit
      obtain rfl := heq
      exact h.delete htype (htenant hkeyTenant)
    · exact h

theorem recorded_deleteTenantKeys (htenant : 0x3A ∉ tenantId'.units → tenants tenantId') :
    Recorded tenants bag (bag.deleteTenantKeys tenantId') := by
  suffices ∀ (scopedIds : List JSString) (bag' : KeyBag), Recorded tenants bag bag' →
      Recorded tenants bag (scopedIds.foldl (KeyBag.deleteIfOf tenantId') bag') from
    this _ bag .refl
  intro scopedIds
  induction scopedIds with
  | nil => exact fun _ h => h
  | cons scopedId scopedIds ih => exact fun bag' h => ih _ (h.deleteIfOf htenant scopedId)

/-! ## What follows of recorded changes -/

theorem Recorded.mono {tenants' : JSString → Prop} (h : Recorded tenants bag bag')
    (himp : ∀ tenantId, tenants tenantId → tenants' tenantId) : Recorded tenants' bag bag' := by
  induction h with
  | refl => exact .refl
  | change _ htype htenant hframe hdistinct hremaining ih =>
    exact ih.change htype (himp _ htenant) hframe hdistinct hremaining

theorem Recorded.distinct (h : Recorded tenants bag bag') (hbag : Distinct bag.keys) :
    Distinct bag'.keys := by
  induction h with
  | refl => exact hbag
  | change _ _ _ _ hdistinct _ ih => exact hdistinct ih

/-- The events bear the numbers from one on. -/
def Numbered (bag : KeyBag) : Prop :=
  bag.keyChanges.map (·.changeSeq) = List.range' 1 bag.keyChanges.length
    ∧ bag.nextKeyChangeSeq = bag.keyChanges.length + 1

theorem Recorded.numbered (h : Recorded tenants bag bag') (hbag : Numbered bag) :
    Numbered bag' := by
  induction h with
  | refl => exact hbag
  | change _ _ _ _ _ _ ih =>
    obtain ⟨hseqs, hnext⟩ := ih
    refine ⟨?_, ?_⟩
    · rw [recordKeyChange, map_append, length_append, hseqs, hnext, ← range'_append]
      rw [Nat.one_mul, Nat.add_comm 1]
      rfl
    · rw [recordKeyChange, length_append, hnext]
      rfl

/-- **Recorded changes are told.** -/
theorem Recorded.follows (htenant : 0x3A ∉ tenantId.units)
    (h : Recorded (fun tenantId' => 0x3A ∉ tenantId'.units) bag bag') :
    Follows tenantId keyId bag bag' := by
  induction h with
  | refl => exact .refl bag
  | @change bag' keys type tenantId' id action remaining _ htype htenant' hframe _ hremaining ih =>
    refine ih.trans ⟨_, rfl, ?_⟩
    by_cases hsame : scopedKeyId "doc" tenantId keyId = scopedKeyId type tenantId' id
    · obtain ⟨rfl, rfl, rfl⟩ := scopedKeyId_inj colon_notMem_doc htype htenant htenant' hsame
      rw [Tells, lastAbout_singleton, if_pos ⟨rfl, rfl, rfl⟩]
      dsimp only
      rw [IsCurrent, versions, length_map, hremaining]
      exact ⟨rfl, rfl⟩
    · have hother : ¬ IsAbout tenantId keyId ⟨bag'.nextKeyChangeSeq, type, tenantId', id, action,
          remaining, remaining > 0⟩ := by
        rintro ⟨rfl, rfl, rfl⟩
        exact hsame rfl
      rw [Tells, lastAbout_singleton, if_neg hother]
      change (versions tenantId keyId bag').Perm (((keys.get? _).getD []).map _)
      rw [hframe _ hsame]
      exact .refl _

end Recorded

/-! ## The events since a cursor -/

theorem Numbered.getLatestChangeCursor (h : Numbered bag) :
    bag.getLatestChangeCursor.getD 0 = bag.keyChanges.length := by
  rw [KeyBag.getLatestChangeCursor, ← getLast?_map, h.1, getLast?_range']
  split_ifs with hempty
  · exact hempty.symm
  · exact Nat.add_sub_cancel_left 1 _

/-- **The events since a cursor** are those that came after it was taken. -/
theorem iterateChangesSince_eq {events : List KeyBagChangeEvent} (h : Numbered bag)
    (h' : Numbered bag') (hchanges : bag'.keyChanges = bag.keyChanges ++ events) :
    bag'.iterateChangesSince bag.getLatestChangeCursor = events := by
  have hseqs := h'.1
  rw [hchanges, map_append, length_append, h.1, ← range'_append] at hseqs
  have hevents := append_cancel_left hseqs
  rw [iterateChangesSince, h.getLatestChangeCursor, hchanges, filter_append,
    filter_eq_nil_iff.mpr, filter_eq_self.mpr, nil_append]
  · intro event hmem
    have hseq := mem_map_of_mem (f := KeyBagChangeEvent.changeSeq) hmem
    rw [hevents, mem_range'_1] at hseq
    rw [decide_eq_true_eq]
    omega
  · intro event hmem
    have hseq := mem_map_of_mem (f := KeyBagChangeEvent.changeSeq) hmem
    rw [h.1, mem_range'_1] at hseq
    rw [decide_eq_true_eq]
    omega

/-! ## What a load brings -/

theorem nodup_dedupeKeyEntries (entries : List KeyEntry) :
    ((dedupeKeyEntries entries).map (·.key)).Nodup := by
  refine List.foldlRecOn (motive := fun unique : List KeyEntry => (unique.map KeyEntry.key).Nodup)
    entries _ nodup_nil fun unique h entry _ => ?_
  split_ifs with hany
  · have hkeys : (fun candidate : KeyEntry => candidate.key) ∘ (fun candidate =>
        if candidate.key = entry.key then mergeEntry candidate entry else candidate)
        = fun candidate => candidate.key := by
      funext candidate
      dsimp only [Function.comp]
      split_ifs <;> rfl
    rw [map_map, hkeys]
    exact h
  · exact nodup_keys_append h hany

theorem distinct_loadedKeys (mapArray : List (JSString × List KeyEntry)) :
    Distinct (loadedKeys mapArray) := by
  refine List.foldlRecOn (motive := Distinct) mapArray _ (fun _ => nodup_nil)
    fun loaded h item _ => ?_
  exact distinct_set h _ (nodup_dedupeKeyEntries _)

/-! ## Two points of a run -/

section Noticed

variable (tenantId keyId : JSString)

/-- A key has the versions it had. -/
def SameVersions (before now : KeyBag) : Prop :=
  versions tenantId keyId before ⊆ versions tenantId keyId now
    ∧ versions tenantId keyId now ⊆ versions tenantId keyId before

instance (before now : KeyBag) : Decidable (SameVersions tenantId keyId before now) :=
  inferInstanceAs (Decidable ((∀ version ∈ _, version ∈ _) ∧ ∀ version ∈ _, version ∈ _))

instance (bag : KeyBag) (event : KeyBagChangeEvent) :
    Decidable (IsCurrent tenantId keyId bag event) :=
  inferInstanceAs (Decidable (_ ∧ _))

/-- **A change of a key is noticed** by who took its cursor before: there is an event for the key if
its versions differ, and the last event for it is current. -/
def Noticed (before now : KeyBag) : Prop :=
  (SameVersions tenantId keyId before now
      ∨ ∃ event ∈ now.iterateChangesSince before.getLatestChangeCursor,
        IsAbout tenantId keyId event)
    ∧ ∀ event ∈ lastAbout tenantId keyId (now.iterateChangesSince before.getLatestChangeCursor),
        IsCurrent tenantId keyId now event

end Noticed

instance (before now : KeyBag) : Decidable (Noticed tenantId keyId before now) :=
  inferInstanceAs (Decidable ((_ ∨ ∃ _ ∈ _, _) ∧ ∀ _ ∈ _, _))

theorem noticed_of_follows (h : Numbered bag) (h' : Numbered bag')
    (hfollows : Follows tenantId keyId bag bag') : Noticed tenantId keyId bag bag' := by
  obtain ⟨events, hchanges, htells⟩ := hfollows
  rw [Noticed, iterateChangesSince_eq h h' hchanges]
  unfold Tells at htells
  cases hlast : lastAbout tenantId keyId events with
  | none =>
    rw [hlast] at htells
    exact ⟨.inl ⟨htells.subset, htells.symm.subset⟩, fun event hmem => nomatch hmem⟩
  | some event =>
    rw [hlast] at htells
    refine ⟨.inr ?_, fun event' hmem => ?_⟩
    · obtain ⟨hevent, habout⟩ := mem_filter.mp (mem_of_getLast? hlast)
      exact ⟨event, hevent, of_decide_eq_true habout⟩
    · obtain rfl := Option.some.inj hmem
      exact htells

theorem SameVersions.perm (h : SameVersions tenantId keyId bag bag') (hbag : Distinct bag.keys)
    (hbag' : Distinct bag'.keys) :
    (versions tenantId keyId bag).Perm (versions tenantId keyId bag') :=
  (perm_ext_iff_of_nodup (hbag _) (hbag' _)).mpr fun _ => ⟨(h.1 ·), (h.2 ·)⟩

end KeyBag

namespace KeyBagSession

open KeyBag

/-- The tenant whose keys a step is to change. -/
def namedTenant (session : KeyBagSession) : Event → Option JSString
  | .set tenantId .. | .deleteKey tenantId _ | .deleteKeyVersion tenantId .. => some tenantId
  | .deleteTenantKeys _ | .call _ => none
  | .resume index _ _ =>
    match session.pending[index]? with
    | some (.decryptAndImportKey tenantId ..) | some (.createDocKey tenantId ..) => some tenantId
    | some .load | none => none

/-- What a load brings that completes in a step. -/
def loaded (session : KeyBagSession) : Event → Option (List (JSString × List KeyEntry))
  | .resume index (some (.mapArray items)) _ =>
    if session.pending[index]? = some .load then some items else none
  | _ => none

variable {tenantId keyId : JSString}

/-- **What a step does**: changes that it records, for the tenant it names, or a load. -/
theorem step_spec (session : KeyBagSession) (event : Event) :
    Recorded (fun tenantId => tenantId ∈ session.namedTenant event ∨ 0x3A ∉ tenantId.units)
        session.bag (session.step event).bag
      ∨ ∃ items ∈ session.loaded event, (session.step event).bag = session.bag.load items := by
  cases event with
  | set tenantId id key createdAt addedAt now => exact .inl (recorded_addEntry (.inl rfl) _)
  | deleteKey tenantId id => exact .inl (recorded_deleteKey (.inl rfl))
  | deleteKeyVersion tenantId id versionIndex =>
    exact .inl (recorded_deleteKeyVersion (.inl rfl) versionIndex)
  | deleteTenantKeys tenantId => exact .inl (recorded_deleteTenantKeys .inr)
  | call call => exact .inl .refl
  | resume index result now =>
    unfold step namedTenant
    dsimp only
    cases hpending : session.pending[index]? with
    | none => exact .inl .refl
    | some call =>
      dsimp only
      cases result with
      | none => exact .inl .refl
      | some result =>
        cases call with
        | decryptAndImportKey tenantId id createdAt | createDocKey tenantId id createdAt =>
          cases result with
          | keyBytes key => exact .inl (recorded_addEntry (.inl rfl) _)
          | mapArray items => exact .inl .refl
        | load =>
          cases result with
          | keyBytes key => exact .inl .refl
          | mapArray items => exact .inr ⟨items, if_pos hpending, rfl⟩

/-- What every bag keeps. -/
def Sound (session : KeyBagSession) : Prop :=
  Distinct session.bag.keys ∧ Numbered session.bag

theorem sound_step (session : KeyBagSession) (event : Event) (h : session.Sound) :
    (session.step event).Sound := by
  obtain ⟨hdistinct, hnumbered⟩ := h
  rcases step_spec session event with hrecorded | ⟨items, -, hload⟩
  · exact ⟨hrecorded.distinct hdistinct, hrecorded.numbered hnumbered⟩
  · rw [Sound, hload]
    exact ⟨distinct_loadedKeys items, hnumbered⟩

theorem sound_run (events : List Event) : (run step {} events).Sound :=
  List.foldlRecOn (motive := Sound) events step ⟨fun _ => nodup_nil, rfl, rfl⟩
    fun session h event _ => sound_step session event h

/-- A step for tenants without a colon, in which no load changes the versions of a key. -/
def Regular (tenantId keyId : JSString) (session : KeyBagSession) (event : Event) : Prop :=
  (∀ tenantId' ∈ session.namedTenant event, 0x3A ∉ tenantId'.units)
    ∧ ∀ items ∈ session.loaded event,
        SameVersions tenantId keyId session.bag (session.bag.load items)

instance (tenantId keyId : JSString) (session : KeyBagSession) (event : Event) :
    Decidable (Regular tenantId keyId session event) :=
  inferInstanceAs (Decidable ((∀ _ ∈ _, _) ∧ ∀ _ ∈ _, _))

theorem follows_step (htenant : 0x3A ∉ tenantId.units) {session : KeyBagSession} {event : Event}
    (h : session.Sound) (hregular : Regular tenantId keyId session event) :
    Follows tenantId keyId session.bag (session.step event).bag := by
  rcases step_spec session event with hrecorded | ⟨items, hitems, hload⟩
  · refine Recorded.follows htenant (hrecorded.mono fun tenantId' hnamed => ?_)
    exact hnamed.elim (hregular.1 tenantId') id
  · have hsame := hregular.2 items hitems
    rw [hload]
    exact ⟨[], (append_nil _).symm, hsame.perm h.1 (distinct_loadedKeys items)⟩

/-- **No change of a key goes unnoticed**, unless a load made it: from any point of a run on, a key
of a tenant without a colon has its versions or an event, and its last event is current. -/
theorem noticed_run {tenantId keyId : JSString} (htenant : 0x3A ∉ tenantId.units)
    (events events' : List Event)
    (h : AllSteps step (Regular tenantId keyId) (run step {} events) events') :
    Noticed tenantId keyId (run step {} events).bag
      (run step {} (events ++ events')).bag := by
  have hbefore := sound_run events
  have hnow : (run step (run step {} events) events').Sound
      ∧ Follows tenantId keyId (run step {} events).bag
        (run step (run step {} events) events').bag :=
    Run.induction (motive := fun now => now.Sound
        ∧ Follows tenantId keyId (run step {} events).bag now.bag) ⟨hbefore, .refl _⟩
      (fun now event hnow hregular => ⟨sound_step now event hnow.1,
        hnow.2.trans (follows_step htenant hnow.1 hregular)⟩) h
  rw [run_append]
  exact noticed_of_follows hbefore.2 hnow.1.2 hnow.2

/-- A key is set, loaded as it was and made anew. -/
theorem noticed_run_newVersion :
    let events := [Event.set "t" "default" [1] none none 0]
    let events' := [.call .load, .call (.createDocKey "t" "default" (some 5)),
      .resume 0 (some (.mapArray [("doc:t:default", [⟨[1], none, some 0⟩])])) 6,
      .resume 0 (some (.keyBytes [2])) 7, .deleteKeyVersion "t" "default" 1]
    Noticed "t" "default" (run step {} events).bag (run step {} (events ++ events')).bag :=
  noticed_run (by decide) _ _ (by decide +kernel)

/-- A load drops a key, and a tenant with a colon sets the key of another one. -/
theorem not_noticed_loadedOrColon :
    (let events := [Event.set "t" "default" [1] none none 0]
      let events' := [Event.call .load, .resume 0 (some (.mapArray [])) 1]
      ¬ Noticed "t" "default" (run step {} events).bag
        (run step {} (events ++ events')).bag)
    ∧ ¬ Noticed "a" "b:c" (run step {} []).bag
        (run step {} [.set "a:b" "c" [1] none none 0]).bag := by
  exact ⟨by decide +kernel, by decide +kernel⟩

end KeyBagSession

end MindooDB
