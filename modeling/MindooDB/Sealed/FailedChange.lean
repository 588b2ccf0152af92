import MindooDB.Sealed.Rotation

/-!
# Sealed/FailedChange — a change of the recipients that is not stored

The session has the new key before the entry with it is stored, and keeps it when that fails.  What
it writes then is under a key that no block packs (`not_failedChange_losesNothing`), until it stores
a change of the recipients whose block is the newest.  For that the document must be opened again:
the one in memory is outdated, and `Automerge.change` throws.  A session that is started anew unpacks
the newest block, and its entries are read by all of its recipients (`failedChange_losesNothing`).
-/

namespace MindooDB.Sealed

open Function List Option RecipientChange SealedState

variable {S : Type}

/-! ## Reading an entry -/

/-- **Every recipient of a block can decrypt an entry.** -/
def DecryptedByRecipients (block : EntryRecipients) (entry : SealedEntry) : Prop :=
  ∀ privateKey, block.IsWrappedFor privateKey →
    ∃ generations, openBundle block privateKey = some generations ∧ entry.key ∈ generations

theorem decryptedByRecipients_iff {block : EntryRecipients} (hwraps : block.wraps ≠ [])
    {entry : SealedEntry} :
    DecryptedByRecipients block entry ↔ entry.key ∈ block.generations := by
  constructor
  · intro h
    obtain ⟨wrap, hwrap⟩ := exists_mem_of_ne_nil _ hwraps
    obtain ⟨generations, hopen, hmem⟩ := h wrap.keyFingerprint ⟨wrap, hwrap, rfl⟩
    rw [← (openBundle_eq_some_iff.mp hopen).2] at hmem
    exact mem_reverse.mp hmem
  · intro hmem privateKey hwrapped
    exact ⟨_, openBundle_eq_some_iff.mpr ⟨hwrapped, rfl⟩, mem_reverse.mpr hmem⟩

/-- The entries from some point on are read by every recipient of the newest block. -/
def Readable (n : ℕ) (state : SealedState S) : Prop :=
  ∀ newest ∈ newestBlock state.entries, ∀ entry ∈ state.entries.drop n,
    DecryptedByRecipients newest entry

variable {generations : List DocKey} {op : SealedOp S}

variable {failed : S → Prop}

/-- What holds of a document makes all of its entries readable. -/
theorem Holds.readable {state : SealedState S}
    (h : Holds failed state generations) : Readable 0 state := by
  intro newest hnewest entry hentry
  obtain ⟨newest', hnewest', hmem, hepoch⟩ := h.exists_newest
  obtain rfl := some.inj (hnewest'.symm.trans hnewest)
  have hblock := h.blocks newest' hmem
  refine (decryptedByRecipients_iff hblock.wraps).mpr ((hblock.perm hepoch).mem_iff.mpr ?_)
  exact h.keys entry hentry

/-! ## A session that goes on -/

/-- **What holds while a session goes on** after a failed change. -/
structure Alone (session : S) (n : ℕ) (pending : Prop) (state : SealedState S)
    (cached : List DocKey) (newest : EntryRecipients) : Prop where
  length : n ≤ state.entries.length
  cache : (state.sessions session).sealedGenerations = some cached
  nonempty : cached ≠ []
  blocks : ∀ block ∈ blocksOf state.entries, block.wraps ≠ []
  isNewest : newestBlock state.entries = some newest
  epoch_pos : 0 < newest.epoch
  epoch_le : newest.epoch ≤ cached.length
  packs : ¬ pending → cached ⊆ newest.generations
  since : ∀ entry ∈ state.entries.drop n, entry.key ∈ cached ∧ entry.key ∈ newest.generations
  memory : ∀ block, (state.sessions session).sealedRecipients = some block →
    block ∈ blocksOf state.entries ∧ block.epoch = newest.epoch
      ∧ (¬ pending → cached ⊆ block.generations)
  unpublished : pending → ∀ key ∈ cached.head?, state.IsNewKey key

namespace Alone

variable {session : S} {n : ℕ} {pending : Prop} {state : SealedState S} {cached : List DocKey}
  {newest : EntryRecipients}

section

variable (h : Alone session n pending state cached newest)

include h

theorem upToDate :
    UpToDate state.entries cached :=
  ⟨newest, h.isNewest, h.epoch_le, h.epoch_pos⟩

theorem newest_mem :
    newest ∈ blocksOf state.entries :=
  (newestBlock_spec h.isNewest).1

theorem readable : Readable n state := by
  intro newest' hnewest entry hentry
  obtain rfl := some.inj (h.isNewest.symm.trans hnewest)
  exact (decryptedByRecipients_iff (h.blocks _ h.newest_mem)).mpr (h.since entry hentry).2

/-- **The session keeps its keys**, and the block of the document is of the newest epoch. -/
theorem opened (hsession : op.session = session) (hopening : op.opening ≠ .fresh) :
    (state.opened op).sealedGenerations = some cached
      ∧ ∀ block, (state.opened op).sealedRecipients = some block →
        block ∈ blocksOf state.entries ∧ block.epoch = newest.epoch
          ∧ (¬ pending → cached ⊆ block.generations) := by
  subst hsession
  constructor
  · simp only [opened, openSession]
    rw [if_neg hopening, h.cache]
    exact h.upToDate.ingest op.write.keys
  · intro block hblock
    simp only [opened, openSession] at hblock
    cases hcase : op.opening with
    | fresh => exact absurd hcase hopening
    | loaded =>
      rw [hcase] at hblock
      obtain rfl := some.inj (h.isNewest.symm.trans hblock)
      exact ⟨h.newest_mem, rfl, h.packs⟩
    | restored =>
      rw [hcase] at hblock
      cases hblock
    | cached =>
      rw [hcase] at hblock
      dsimp only at hblock
      split_ifs at hblock
      exact h.memory block hblock

/-- The block of a change is not of an epoch before, and of a later one when somebody is removed. -/
theorem planned (hsession : op.session = session) (hopening : op.opening ≠ .fresh)
    {change : RecipientChange} {plan : RecipientPlan}
    (hplan : change.plan state.encryptFor (state.opened op) = .ok plan) :
    plan.epoch ≤ plan.generations.length ∧ cached ⊆ plan.generations
      ∧ (plan.removedStableIds = [] ∧ plan.generations = cached ∧ newest.epoch ≤ plan.epoch
        ∨ plan.removedStableIds ≠ [] ∧ newest.epoch < plan.epoch) := by
  obtain ⟨hcached, hmemory⟩ := h.opened hsession hopening
  obtain ⟨resolved, existing, hspec⟩ := plan_spec hplan
  have hgenerations := hspec.generations
  have hepoch := hspec.epoch
  rw [hcached, getD_some] at hgenerations hepoch
  obtain ⟨hle, hge⟩ : ((state.opened op).sealedRecipients.map EntryRecipients.epoch).getD
        cached.length ≤ cached.length
      ∧ newest.epoch ≤ ((state.opened op).sealedRecipients.map EntryRecipients.epoch).getD
        cached.length := by
    cases hblock : (state.opened op).sealedRecipients with
    | none => exact ⟨le_rfl, h.epoch_le⟩
    | some block =>
      have hsame := (hmemory block hblock).2.1
      exact ⟨hsame.trans_le h.epoch_le, hsame.ge⟩
  by_cases hremoved : plan.removedStableIds = []
  · rw [hremoved] at hgenerations hepoch
    rw [if_pos isEmpty_nil] at hgenerations
    have hepoch' := hepoch.trans (Nat.add_zero _)
    refine ⟨?_, hgenerations ▸ List.Subset.refl _, .inl ⟨hremoved, hgenerations, ?_⟩⟩
    · rw [hepoch', hgenerations]
      exact hle
    · rw [hepoch']
      exact hge
  · have hempty : ¬ plan.removedStableIds.isEmpty = true := mt List.isEmpty_iff.mp hremoved
    rw [if_neg hempty] at hgenerations hepoch
    refine ⟨?_, ?_, .inr ⟨hremoved, ?_⟩⟩
    · rw [hepoch, hgenerations, length_cons]
      exact Nat.succ_le_succ hle
    · rw [hgenerations]
      exact subset_cons_self _ _
    · rw [hepoch]
      exact Nat.lt_succ_of_le hge

/-- The newest block stays, or is the one of the new entry. -/
theorem newest_concat (entry : SealedEntry) :
    ∃ newest', newestBlock (state.entries ++ [entry]) = some newest'
      ∧ newest.epoch ≤ newest'.epoch ∧ (newest' = newest ∨ entry.recipients = some newest') := by
  have hmem : newest ∈ blocksOf (state.entries ++ [entry]) := by
    rw [blocksOf_append]
    exact mem_append_left _ h.newest_mem
  have hwraps := h.blocks newest h.newest_mem
  obtain ⟨newest', hnewest⟩ := exists_newestBlock hmem hwraps
  refine ⟨newest', hnewest, (newestBlock_spec hnewest).2.2 newest hmem hwraps, ?_⟩
  rcases newestBlock_concat state.entries entry with hold | hentry
  · rw [hold, h.isNewest] at hnewest
    exact .inl (some.inj hnewest).symm
  · exact .inr (hentry.symm.trans hnewest)

end

end Alone

/-! ## The condition -/

/-- The key that a session generated is still in no block after an operation. -/
def pendingAfter (pending : Prop) (state : SealedState S) (op : SealedOp S) : Prop :=
  pending ∧ ¬ state.Publishes op ∨ state.RotationFails op

section

variable [DecidableEq S]

/-- The same session goes on with the document, and a generated key is new. -/
def Continues (session : S) : SealedState S → List (SealedOp S) → Prop
  | _, [] => True
  | state, op :: ops => op.session = session ∧ op.opening ≠ .fresh
    ∧ (∀ change, op.action = .mutateRecipients change → state.IsNewKey change.nextDek)
    ∧ Continues session (state.step op) ops

/-- **While its key is in no block, a session stores nothing but a change of the recipients** whose
block is the newest. -/
def Careful : Prop → SealedState S → List (SealedOp S) → Prop
  | _, _, [] => True
  | pending, state, op :: ops => (pending → state.Stores op → state.Publishes op)
    ∧ Careful (pendingAfter pending state op) (state.step op) ops

/-! ## What an operation does -/

/-- A rotation that fails puts its key before those of the session, and stores nothing. -/
theorem SealedState.step_of_rotationFails {state : SealedState S}
    (hfails : state.RotationFails op) {cached : List DocKey}
    (hcached : (state.opened op).sealedGenerations = some cached)
    (hdate : UpToDate state.entries cached) :
    ∃ change outdated, op.action = .mutateRecipients change
      ∧ state.step op = { state with
          sessions := Function.update state.sessions op.session { state.opened op with
            sealedGenerations := some (change.nextDek :: cached), outdated } } := by
  obtain ⟨⟨change, plan, haction, hplan, hremoved⟩, hfalse⟩ := hfails
  rw [state.persists_of_mutates haction] at hfalse
  obtain ⟨resolved, existing, hspec⟩ := plan_spec hplan
  have hgenerations : plan.generations = change.nextDek :: cached := by
    rw [hspec.generations, if_neg (mt List.isEmpty_iff.mp hremoved), hcached, getD_some]
  rw [step, haction]
  dsimp only
  rw [hplan]
  dsimp only
  by_cases houtdated : (state.opened op).outdated = true
  · rw [if_pos houtdated, hgenerations]
    exact ⟨change, _, rfl, rfl⟩
  · rw [Bool.eq_false_of_not_eq_true houtdated, Bool.not_false, Bool.and_true] at hfalse
    rw [if_neg houtdated, persist_eq (congrArg some hgenerations) (hdate.cons _), hfalse,
      hgenerations]
    exact ⟨change, _, rfl, rfl⟩

namespace Alone

variable {session : S} {n : ℕ} {pending : Prop} {state : SealedState S} {cached : List DocKey}
  {newest : EntryRecipients}

section

variable (h : Alone session n pending state cached newest)

include h

/-- An entry is written under one of the keys, all of which the newest block packs. -/
theorem appended {pending' : Prop} {cached' : List DocKey} {newest' : EntryRecipients}
    {entry : SealedEntry} {encryptFor : EncryptFor} {block? : Option EntryRecipients}
    {outdated : Bool} (hpending' : ¬ pending') (hcached : cached ⊆ cached')
    (hkey : entry.key ∈ cached')
    (hwraps : ∀ block, entry.recipients = some block → block.wraps ≠ [])
    (hnewest : newestBlock (state.entries ++ [entry]) = some newest')
    (hle : newest.epoch ≤ newest'.epoch) (hepoch : newest'.epoch ≤ cached'.length)
    (hpacks : cached' ⊆ newest'.generations)
    (hblock : ∀ block, block? = some block → block ∈ blocksOf (state.entries ++ [entry])
      ∧ block.epoch = newest'.epoch ∧ cached' ⊆ block.generations) :
    Alone session n pending'
      { entries := state.entries ++ [entry]
        encryptFor
        sessions := Function.update state.sessions session
          ⟨some cached', block?, state.entries.length + 1, outdated⟩ } cached' newest' where
  length := by
    rw [length_append]
    exact Nat.le_add_right_of_le h.length
  cache := by
    dsimp only
    rw [update_self]
  nonempty := ne_nil_of_mem hkey
  blocks := by
    intro block hmem
    rw [blocksOf_append] at hmem
    rcases mem_append.mp hmem with hold | hnew
    · exact h.blocks block hold
    · obtain ⟨other, hother, hrecipients⟩ := mem_blocksOf.mp hnew
      rw [mem_singleton.mp hother] at hrecipients
      exact hwraps block hrecipients
  isNewest := hnewest
  epoch_pos := h.epoch_pos.trans_le hle
  epoch_le := hepoch
  packs := fun _ => hpacks
  since := by
    intro other hother
    rw [drop_append_of_le_length h.length] at hother
    rcases mem_append.mp hother with hold | hnew
    · have hmem := hcached (h.since other hold).1
      exact ⟨hmem, hpacks hmem⟩
    · rw [mem_singleton.mp hnew]
      exact ⟨hkey, hpacks hkey⟩
  memory := by
    intro block hmem
    dsimp only at hmem
    rw [update_self] at hmem
    obtain ⟨hmem', hsame, hsubset⟩ := hblock block hmem
    exact ⟨hmem', hsame, fun _ => hsubset⟩
  unpublished := fun hpending => absurd hpending hpending'

/-- Nothing is written, and the keys stay. -/
theorem kept {pending' : Prop} {kept : SealedSession}
    (hcache : kept.sealedGenerations = some cached)
    (hmemory : ∀ block, kept.sealedRecipients = some block → block ∈ blocksOf state.entries
      ∧ block.epoch = newest.epoch ∧ (¬ pending → cached ⊆ block.generations))
    (hpending : pending' ↔ pending) :
    Alone session n pending'
      { state with sessions := Function.update state.sessions session kept } cached newest where
  length := h.length
  cache := by
    dsimp only
    rw [update_self, hcache]
  nonempty := h.nonempty
  blocks := h.blocks
  isNewest := h.isNewest
  epoch_pos := h.epoch_pos
  epoch_le := h.epoch_le
  packs := by
    rw [hpending]
    exact h.packs
  since := h.since
  memory := by
    dsimp only
    rw [update_self, hpending]
    exact hmemory
  unpublished := by
    rw [hpending]
    exact h.unpublished

/-- A rotation fails: its key is in no block. -/
theorem rotationFailed {pending' : Prop} (hpending : pending') {nextDek : DocKey}
    (hnew : state.IsNewKey nextDek) {kept : SealedSession}
    (hcache : kept.sealedGenerations = some (nextDek :: cached))
    (hmemory : ∀ block, kept.sealedRecipients = some block → block ∈ blocksOf state.entries
      ∧ block.epoch = newest.epoch) :
    Alone session n pending'
      { state with sessions := Function.update state.sessions session kept } (nextDek :: cached)
      newest where
  length := h.length
  cache := by
    dsimp only
    rw [update_self, hcache]
  nonempty := cons_ne_nil _ _
  blocks := h.blocks
  isNewest := h.isNewest
  epoch_pos := h.epoch_pos
  epoch_le := h.epoch_le.trans (Nat.le_succ _)
  packs := fun hnot => absurd hpending hnot
  since := fun entry hentry =>
    ⟨mem_cons_of_mem _ (h.since entry hentry).1, (h.since entry hentry).2⟩
  memory := by
    dsimp only
    rw [update_self]
    intro block hblock
    obtain ⟨hmem, hsame⟩ := hmemory block hblock
    exact ⟨hmem, hsame, fun hnot => absurd hpending hnot⟩
  unpublished := by
    rintro - key hkey
    obtain rfl := some.inj hkey
    exact hnew

section

variable (hsession : op.session = session)

include hsession

theorem exists_outcome (hopening : op.opening ≠ .fresh) :
    ∃ generations', Outcome state op [] cached (state.step op) generations' := by
  obtain ⟨key, rest, rfl⟩ := exists_cons_of_ne_nil h.nonempty
  exact outcome (h.opened hsession hopening).1 h.upToDate []

theorem step_of_outcome (hopening : op.opening ≠ .fresh)
    (hcareful : pending → state.Stores op → state.Publishes op) (hfails : ¬ state.RotationFails op)
    {generations' : List DocKey} {state' : SealedState S}
    (houtcome : Outcome state op generations cached state' generations') :
    ∃ cached' newest', Alone session n (pendingAfter pending state op) state' cached' newest' := by
  obtain ⟨hcached, hmemory⟩ := h.opened hsession hopening
  have hpublished : (pending → state.Publishes op) → ¬ pendingAfter pending state op :=
    fun hpublishes hafter => hafter.elim (fun hboth => hboth.2 (hpublishes hboth.1)) hfails
  cases houtcome with
  | kept session' hkept hblock hseen hstores =>
    rw [hsession]
    refine ⟨cached, newest, h.kept (hkept.resolve_right hfails) ?_ ?_⟩
    · rw [hblock]
      exact hmemory
    · rw [pendingAfter]
      refine ⟨fun hafter => (hafter.resolve_right hfails).1, fun hpending => .inl ⟨hpending, ?_⟩⟩
      rintro ⟨hstored, change, plan, haction, hplan, -⟩
      refine hstores ⟨hstored, fun change' haction' => ⟨plan, ?_⟩⟩
      rwa [← SealedAction.mutateRecipients.inj (haction.symm.trans haction')]
  | written key rest recipients changes outdated hcons haction hstored hblock =>
    have hpending : ¬ pending := by
      intro hpending
      obtain ⟨-, change, -, hmutates, -⟩ :=
        hcareful hpending ⟨hstored, fun change hmutates => absurd hmutates (haction change)⟩
      exact haction change hmutates
    obtain ⟨newest', hnewest, hle, horigin⟩ :=
      h.newest_concat ⟨recipients, op.write.now, key, changes⟩
    have hfits : ∀ block, block = newest ∨ (state.opened op).sealedRecipients = some block →
        block ∈ blocksOf state.entries ∧ block.epoch = newest.epoch
          ∧ cached ⊆ block.generations := by
      rintro block (rfl | hmem)
      · exact ⟨h.newest_mem, rfl, h.packs hpending⟩
      · obtain ⟨hmem', hsame, hsubset⟩ := hmemory block hmem
        exact ⟨hmem', hsame, hsubset hpending⟩
    obtain ⟨-, hsame, hsubset⟩ := hfits newest' (horigin.imp_right (hblock newest'))
    rw [hsession, ← hcons]
    refine ⟨cached, newest', h.appended (hpublished fun h => absurd h hpending)
      (List.Subset.refl _) (hcons ▸ mem_cons_self) ?_ hnewest hle
      (hsame.trans_le h.epoch_le) hsubset ?_⟩
    · intro block hrecipients
      exact h.blocks block (hfits block (.inr (hblock block hrecipients))).1
    · intro block hmem
      have hopened : (state.opened op).sealedRecipients = some block := by
        rcases or_eq_some_iff.mp hmem with hrecipients | ⟨-, hopened⟩
        · exact hblock block hrecipients
        · exact hopened
      obtain ⟨hmem', hsame', hsubset'⟩ := hfits block (.inr hopened)
      rw [blocksOf_append]
      exact ⟨mem_append_left _ hmem', hsame'.trans hsame.symm, hsubset'⟩
  | changed change plan key rest haction hplan hcons hstored =>
    obtain ⟨hlength, hsubset, horder⟩ := h.planned hsession hopening hplan
    obtain ⟨resolved, existing, hspec⟩ := plan_spec hplan
    have hwraps : (sealToTargets plan.generations plan.remaining plan.epoch).wraps ≠ [] :=
      fun hnil => hspec.remaining_ne_nil (map_eq_nil_iff.mp hnil)
    have hpacks : plan.generations
        ⊆ (sealToTargets plan.generations plan.remaining plan.epoch).generations := by
      rw [generations_sealToTargets]
      exact List.Subset.refl _
    obtain ⟨newest', hnewest, hle, horigin⟩ := h.newest_concat ⟨some (sealToTargets
      plan.generations plan.remaining plan.epoch), op.write.now, key, true⟩
    have hblock : sealToTargets plan.generations plan.remaining plan.epoch ∈ blocksOf
        (state.entries ++ [⟨some (sealToTargets plan.generations plan.remaining plan.epoch),
          op.write.now, key, true⟩]) := by
      rw [blocksOf_append]
      exact mem_append_right _ (mem_singleton_self _)
    have hmax : plan.epoch ≤ newest'.epoch := (newestBlock_spec hnewest).2.2 _ hblock hwraps
    have hkey : key ∈ plan.generations := hcons ▸ mem_cons_self
    have hwraps' : ∀ block, some (sealToTargets plan.generations plan.remaining plan.epoch)
        = some block → block.wraps ≠ [] := by
      rintro _ ⟨⟩
      exact hwraps
    rw [hsession, ← hcons]
    by_cases hblock' : newest' = sealToTargets plan.generations plan.remaining plan.epoch
    · subst hblock'
      refine ⟨plan.generations, _, h.appended (hpublished fun _ => ?_) hsubset hkey hwraps' hnewest
        hle hlength hpacks ?_⟩
      · refine ⟨hstored, change, plan, haction, hplan, ?_⟩
        rwa [newestBlock, map_append] at hnewest
      · rintro _ ⟨⟩
        exact ⟨hblock, rfl, hpacks⟩
    · -- The newest block stays: nobody is removed, and it packs the keys of the session.
      have hpending : ¬ pending := by
        intro hpending
        have hstores : state.Stores op := by
          refine ⟨hstored, fun change' haction' => ⟨plan, ?_⟩⟩
          rwa [← SealedAction.mutateRecipients.inj (haction.symm.trans haction')]
        obtain ⟨-, hpublished⟩ := (state.publishes_iff haction hplan).mp (hcareful hpending hstores)
        rw [newestBlock, map_append] at hnewest
        exact hblock' (some.inj (hnewest.symm.trans hpublished))
      obtain rfl := horigin.resolve_right fun hnew => hblock' (some.inj hnew).symm
      obtain ⟨-, hgenerations, hge⟩ :=
        horder.resolve_right fun hremoved => absurd hmax (not_le.mpr hremoved.2)
      refine ⟨plan.generations, newest', h.appended (hpublished fun h => absurd h hpending)
        hsubset hkey hwraps' hnewest le_rfl (hgenerations ▸ h.epoch_le)
        (hgenerations ▸ h.packs hpending) ?_⟩
      rintro _ ⟨⟩
      exact ⟨hblock, le_antisymm hmax hge, hpacks⟩

/-- **What one operation keeps**, of a session that is careful. -/
theorem step (hopening : op.opening ≠ .fresh)
    (hnew : ∀ change, op.action = .mutateRecipients change → state.IsNewKey change.nextDek)
    (hcareful : pending → state.Stores op → state.Publishes op) :
    ∃ cached' newest', Alone session n (pendingAfter pending state op) (state.step op) cached'
      newest' := by
  obtain ⟨hcached, hmemory⟩ := h.opened hsession hopening
  by_cases hfails : state.RotationFails op
  · obtain ⟨change, outdated, haction, hstep⟩ :=
      step_of_rotationFails hfails hcached h.upToDate
    rw [hstep, hsession]
    refine ⟨change.nextDek :: cached, newest, h.rotationFailed (Or.inr hfails) ?_ rfl
      fun block hblock => ⟨(hmemory block hblock).1, (hmemory block hblock).2.1⟩⟩
    exact hnew change haction
  obtain ⟨generations', houtcome⟩ := h.exists_outcome hsession hopening
  exact h.step_of_outcome hsession hopening hcareful hfails houtcome

/-- **A session that is not careful stores what the recipients cannot read.** -/
theorem not_readable (hopening : op.opening ≠ .fresh) (hpending : pending)
    (hstores : state.Stores op) (hpublishes : ¬ state.Publishes op) {generations' : List DocKey}
    {state' : SealedState S} (houtcome : Outcome state op generations cached state' generations') :
    ¬ Readable n state' := by
  obtain ⟨-, hmemory⟩ := h.opened hsession hopening
  have hnot : ∀ entry newest', entry.key ∈ cached.head? →
      newestBlock (state.entries ++ [entry]) = some newest' →
      newest' ∈ blocksOf state.entries →
      ¬ ∀ newest ∈ newestBlock (state.entries ++ [entry]),
        ∀ other ∈ (state.entries ++ [entry]).drop n, DecryptedByRecipients newest other := by
    intro entry newest' hkey hnewest hmem hreadable
    have hentry : entry ∈ (state.entries ++ [entry]).drop n := by
      rw [drop_append_of_le_length h.length]
      exact mem_append_right _ (mem_singleton_self _)
    have hpacked := (decryptedByRecipients_iff (h.blocks newest' hmem)).mp
      (hreadable newest' hnewest entry hentry)
    exact h.unpublished hpending _ hkey newest' hmem hpacked
  cases houtcome with
  | kept session' hkept hblock hseen hnotStores => exact absurd hstores hnotStores
  | written key rest recipients changes outdated hcons haction hstored hblock =>
    obtain ⟨newest', hnewest, -, horigin⟩ :=
      h.newest_concat ⟨recipients, op.write.now, key, changes⟩
    refine hnot _ newest' (by rw [hcons]; rfl) hnewest ?_
    rcases horigin with rfl | hrecipients
    · exact h.newest_mem
    · exact (hmemory newest' (hblock newest' hrecipients)).1
  | changed change plan key rest haction hplan hcons hstored =>
    obtain ⟨-, -, horder⟩ := h.planned hsession hopening hplan
    obtain ⟨resolved, existing, hspec⟩ := plan_spec hplan
    have hwraps : (sealToTargets plan.generations plan.remaining plan.epoch).wraps ≠ [] :=
      fun hnil => hspec.remaining_ne_nil (map_eq_nil_iff.mp hnil)
    obtain ⟨newest', hnewest, -, horigin⟩ := h.newest_concat ⟨some (sealToTargets
      plan.generations plan.remaining plan.epoch), op.write.now, key, true⟩
    have hold : newest' = newest := by
      refine horigin.resolve_right fun hnew => hpublishes ?_
      refine (state.publishes_iff haction hplan).mpr ⟨hstored, ?_⟩
      rw [newestBlock, map_append] at hnewest
      exact hnewest.trans hnew.symm
    subst hold
    have hblock : sealToTargets plan.generations plan.remaining plan.epoch ∈ blocksOf
        (state.entries ++ [⟨some (sealToTargets plan.generations plan.remaining plan.epoch),
          op.write.now, key, true⟩]) := by
      rw [blocksOf_append]
      exact mem_append_right _ (mem_singleton_self _)
    have hmax : plan.epoch ≤ newest'.epoch := (newestBlock_spec hnewest).2.2 _ hblock hwraps
    obtain ⟨-, hgenerations, -⟩ :=
      horder.resolve_right fun hremoved => absurd hmax (not_le.mpr hremoved.2)
    refine hnot _ newest' ?_ hnewest h.newest_mem
    rw [← hgenerations, hcons]
    rfl

end

/-- **A session that goes on is read just when it is careful.** -/
theorem run_iff {ops : List (SealedOp S)} (hops : Continues session state ops) :
    (∀ done, done <+: ops → Readable n (state.run done)) ↔ Careful pending state ops := by
  induction ops generalizing pending state cached newest with
  | nil =>
    refine iff_of_true (fun done hdone => ?_) trivial
    rw [prefix_nil.mp hdone]
    exact h.readable
  | cons op ops ih =>
    obtain ⟨hsession, hopening, hnew, hrest⟩ := hops
    rw [Careful]
    constructor
    · intro hreadable
      have hcareful : pending → state.Stores op → state.Publishes op := by
        intro hpending hstores
        by_contra hpublishes
        obtain ⟨generations', houtcome⟩ := h.exists_outcome hsession hopening
        exact h.not_readable hsession hopening hpending hstores hpublishes houtcome
          (hreadable [op] (prefix_append [op] ops))
      obtain ⟨cached', newest', h'⟩ := h.step hsession hopening hnew hcareful
      refine ⟨hcareful, (ih h' hrest).mp fun done hdone => ?_⟩
      exact hreadable (op :: done) (cons_prefix_cons.mpr ⟨rfl, hdone⟩)
    · rintro ⟨hcareful, hlater⟩ done hdone
      cases done with
      | nil => exact h.readable
      | cons first done =>
        obtain ⟨rfl, hlast⟩ := cons_prefix_cons.mp hdone
        obtain ⟨cached', newest', h'⟩ := h.step hsession hopening hnew hcareful
        exact (ih h' hrest).mpr hlater done hlast

end

end Alone

/-- **A session goes on after its rotation has failed.** -/
theorem Holds.alone {state : SealedState S}
    (h : Holds failed state generations) (hlegitimate : Legitimate state op)
    (hreopens : failed op.session → op.opening = .fresh) (hfails : state.RotationFails op) :
    ∃ cached newest, Alone op.session (state.step op).entries.length True (state.step op) cached
      newest := by
  obtain ⟨newest, hnewest, hmem, hepoch, cached, hcached, hperm, -⟩ :=
    h.opened hlegitimate.recipient hreopens
  obtain ⟨change, outdated, haction, hstep⟩ :=
    step_of_rotationFails hfails hcached (h.upToDate hperm)
  have hlength : newest.epoch = cached.length := hepoch.trans hperm.length_eq.symm
  rw [hstep]
  refine ⟨change.nextDek :: cached, newest, le_rfl, ?_, cons_ne_nil _ _, ?_, hnewest,
    hepoch ▸ h.length_pos, hlength.le.trans (Nat.le_succ _), fun hnot => absurd trivial hnot, ?_, ?_,
    ?_⟩
  · dsimp only
    rw [update_self]
  · exact fun block hblock => (h.blocks block hblock).wraps
  · rw [drop_length]
    exact fun entry hentry => nomatch hentry
  · dsimp only
    rw [update_self]
    intro block hblock
    obtain ⟨hmem', hsame⟩ := h.opened_sealedRecipients hblock
    exact ⟨hmem', hsame.trans hepoch.symm, fun hnot => absurd trivial hnot⟩
  · rintro - key hkey
    obtain rfl := some.inj hkey
    exact hlegitimate.newKey change haction

/-! ## Runs -/

/-- Where a run ends in a failed change, what holds before it. -/
theorem Holds.run_concat {state : SealedState S}
    (h : Holds failed state generations) {ops : List (SealedOp S)}
    (hrun : Run Legitimate failed state (ops ++ [op])) :
    ∃ failed' generations', Holds failed' (state.run ops) generations'
      ∧ Legitimate (state.run ops) op ∧ (failed' op.session → op.opening = .fresh) := by
  induction ops generalizing failed state generations with
  | nil => exact ⟨failed, generations, h, hrun.1, hrun.2.1⟩
  | cons first ops ih =>
    obtain ⟨hfirst, hreopens, hrest⟩ := hrun
    obtain ⟨-, -, -, -, cached, hcached, hperm, -⟩ := h.opened hfirst.recipient hreopens
    obtain ⟨generations', houtcome⟩ := h.outcome hcached hperm
    exact ih (h.step hcached hperm houtcome).2 hrest

end

/-- **A failed change loses nothing** when its session is started anew; and when the session goes
on, just when it stores nothing until its key is in the newest block. -/
theorem failedChange_losesNothing [DecidableEq S] {session : S} {directory : RecipientDirectory}
    {specs : List RecipientSpec} {options : RecipientOptions} {dek : DocKey} {now : Timestamp}
    {signer : JSString} {created : SealedState S}
    (hcreated : create session directory specs options dek now signer = .ok created)
    {ops : List (SealedOp S)} (hrun : Run Legitimate (fun _ => False) created ops) :
    Readable 0 (created.run ops)
    ∧ ∀ before op, ops = before ++ [op] → (created.run before).RotationFails op →
      ∀ later, Continues op.session (created.run ops) later →
        ((∀ done, done <+: later →
          Readable (created.run ops).entries.length ((created.run ops).run done))
          ↔ Careful True (created.run ops) later) := by
  have h := holds_create hcreated
  constructor
  · obtain ⟨failed, generations, hlast⟩ := h.run (fun _ _ hop => hop.recipient) hrun
    exact hlast.readable
  · rintro before op rfl hfails later hlater
    obtain ⟨failed, generations, hbefore, hlegitimate, hreopens⟩ := h.run_concat hrun
    obtain ⟨cached, newest, halone⟩ := hbefore.alone hlegitimate hreopens hfails
    have hstates : created.run (before ++ [op]) = (created.run before).step op :=
      foldl_append
    rw [hstates] at hlater ⊢
    exact halone.run_iff hlater

/-! ### A key that is lost -/

/-- The creator tries to remove `b`, and fails. -/
def removeBFails : SealedOp ℕ :=
  { removeB with write := { removeB.write with stored := false } }

theorem run_removeBFails : Run Legitimate (fun _ => False) sharedDocument [removeBFails] := by
  refine ⟨⟨by decide +kernel, ?_⟩, nofun, trivial⟩
  rintro _ ⟨⟩
  rw [IsNewKey]
  decide +kernel

theorem removeBFails_fails : sharedDocument.RotationFails removeBFails := by decide +kernel

/-- The creator opens the document again, and tries again. -/
def removeBAgain : SealedOp ℕ :=
  { removeB with opening := .loaded }

-- on the document in memory, the removal fails whatever the store does
example : (sharedDocument.run [removeBFails]).RotationFails removeB := by decide +kernel

/-- The creator tries again, and then goes on. -/
theorem failedChange_losesNothing_retried :
    Readable (sharedDocument.run [removeBFails]).entries.length
      ((sharedDocument.run [removeBFails]).run [removeBAgain, changeBy 0 .cached "CN=a/O=x"]) := by
  have hpublishes : (sharedDocument.run [removeBFails]).Publishes removeBAgain := by decide +kernel
  have hsettled :
      ¬ pendingAfter True (sharedDocument.run [removeBFails]) removeBAgain := by
    rintro (⟨-, hnot⟩ | hfails)
    · exact hnot hpublishes
    · exact absurd hfails (by decide +kernel)
  refine ((failedChange_losesNothing create_sharedDocument run_removeBFails).2 [] removeBFails rfl
    removeBFails_fails [removeBAgain, changeBy 0 .cached "CN=a/O=x"] ?_).mpr ?_ _
    (prefix_refl _)
  · refine ⟨rfl, nofun, ?_, rfl, nofun, nofun, trivial⟩
    rintro _ ⟨⟩
    rw [IsNewKey]
    decide +kernel
  · exact ⟨fun _ _ => hpublishes, fun hpending => absurd hpending hsettled, trivial⟩

/-- **The entry after a failed change is read by nobody.** -/
theorem not_failedChange_losesNothing :
    ¬ ∀ (session : ℕ) (directory : RecipientDirectory) (specs : List RecipientSpec)
        (options : RecipientOptions) (dek : DocKey) (now : Timestamp) (signer : JSString)
        (created : SealedState ℕ),
      create session directory specs options dek now signer = .ok created →
      ∀ (before : List (SealedOp ℕ)) (op : SealedOp ℕ),
        Run Legitimate (fun _ => False) created (before ++ [op]) →
        (created.run before).RotationFails op →
        ∀ later, Continues op.session (created.run (before ++ [op])) later →
          Readable (created.run (before ++ [op])).entries.length
            ((created.run (before ++ [op])).run later) := by
  intro h
  have hreadable := h 0 everybody _ _ _ _ _ _ create_sharedDocument [] removeBFails
    run_removeBFails removeBFails_fails [changeBy 0 .cached "CN=a/O=x"] ⟨rfl, nofun, nofun, trivial⟩
  have hlost : ∃ newest, newestBlock ((sharedDocument.run [removeBFails]).run
        [changeBy 0 .cached "CN=a/O=x"]).entries = some newest
      ∧ ∃ entry ∈ ((sharedDocument.run [removeBFails]).run
          [changeBy 0 .cached "CN=a/O=x"]).entries.drop
            (sharedDocument.run [removeBFails]).entries.length,
        newest.wraps ≠ [] ∧ entry.key ∉ newest.generations := by
    obtain ⟨newest, hnewest⟩ := isSome_iff_exists.mp (show (newestBlock
      ((sharedDocument.run [removeBFails]).run
        [changeBy 0 .cached "CN=a/O=x"]).entries).isSome = true by decide +kernel)
    have hall : ∀ newest ∈ newestBlock ((sharedDocument.run [removeBFails]).run
        [changeBy 0 .cached "CN=a/O=x"]).entries,
        ∃ entry ∈ ((sharedDocument.run [removeBFails]).run
          [changeBy 0 .cached "CN=a/O=x"]).entries.drop
            (sharedDocument.run [removeBFails]).entries.length,
        newest.wraps ≠ [] ∧ entry.key ∉ newest.generations := by decide +kernel
    exact ⟨newest, hnewest, hall newest hnewest⟩
  obtain ⟨newest, hnewest, entry, hentry, hwraps, hnot⟩ := hlost
  exact hnot ((decryptedByRecipients_iff hwraps).mp (hreadable newest hnewest entry hentry))

end MindooDB.Sealed
