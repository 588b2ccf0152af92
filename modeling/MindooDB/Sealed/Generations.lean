import MindooDB.Sealed.Plan

/-!
# Sealed/Generations — the generations of a sealed document

What a session unpacks is the generations of the newest block, in the other order
(`openBundle_sealToTargets`).  As long as every session that failed to store a new key is started
anew, all the sessions that have come to the newest epoch hold its generations, in some order
(`Holds.step`).
-/

namespace MindooDB.Sealed

open EntryRecipients Function List Option SealedAction SealedState

/-! ## Bundles -/

theorem splitGenerations_concatGenerations (generations : List DocKey) :
    splitGenerations (concatGenerations generations) = generations := by
  induction generations with
  | nil =>
    rw [splitGenerations]
    exact dif_neg (by simp [concatGenerations])
  | cons key generations ih =>
    have hlength : key.val.length = 32 := key.property
    have hbytes : concatGenerations (key :: generations)
        = key.val ++ concatGenerations generations := rfl
    rw [splitGenerations, dif_pos (by rw [hbytes, length_append]; omega)]
    congr 1
    · exact Subtype.ext ((congrArg (List.take 32) hbytes).trans (take_left' hlength))
    · rw [hbytes, drop_left' hlength, ih]

/-- The generations that a bundle packs. -/
def EntryRecipients.generations (recipients : EntryRecipients) : List DocKey :=
  splitGenerations recipients.bundle

/-- A key that some wrap of a block is for. -/
def EntryRecipients.IsWrappedFor (recipients : EntryRecipients) (fingerprint : JSString) : Prop :=
  ∃ wrap ∈ recipients.wraps, wrap.keyFingerprint = fingerprint

instance (recipients : EntryRecipients) (fingerprint : JSString) :
    Decidable (recipients.IsWrappedFor fingerprint) :=
  inferInstanceAs (Decidable (∃ wrap ∈ recipients.wraps, _))

@[simp] theorem generations_sealToTargets (generations : List DocKey)
    (targets : List ResolvedWrapTarget) (epoch : ℕ) :
    (sealToTargets generations targets epoch).generations = generations :=
  splitGenerations_concatGenerations generations

theorem isWrappedFor_sealToTargets {generations : List DocKey}
    {targets : List ResolvedWrapTarget} {epoch : ℕ} {fingerprint : JSString} :
    (sealToTargets generations targets epoch).IsWrappedFor fingerprint ↔
      ∃ target ∈ targets, target.keyFingerprint = fingerprint := by
  simp [IsWrappedFor, sealToTargets, sealBundle]

theorem openBundle_eq_some_iff {recipients : EntryRecipients} {privateKey : JSString}
    {generations : List DocKey} : openBundle recipients privateKey = some generations ↔
      recipients.IsWrappedFor privateKey ∧ recipients.generations.reverse = generations := by
  rw [openBundle]
  split_ifs with h
  · have hwrapped : recipients.IsWrappedFor privateKey := by
      simpa [IsWrappedFor] using h
    rw [Option.some.injEq, EntryRecipients.generations, and_iff_right hwrapped]
  · have hwrapped : ¬ recipients.IsWrappedFor privateKey := by
      simpa [IsWrappedFor] using h
    exact iff_of_false nofun fun hand => hwrapped hand.1

/-- **A bundle is unpacked in the other order.** -/
theorem openBundle_sealToTargets {generations : List DocKey} {targets : List ResolvedWrapTarget}
    {epoch : ℕ} {privateKey : JSString}
    (h : ∃ target ∈ targets, target.keyFingerprint = privateKey) :
    openBundle (sealToTargets generations targets epoch) privateKey = some generations.reverse :=
  openBundle_eq_some_iff.mpr ⟨isWrappedFor_sealToTargets.mpr h, by simp⟩

/-! ## The newest block -/

/-- The blocks of the entries. -/
def blocksOf (entries : List SealedEntry) : List EntryRecipients :=
  entries.filterMap SealedEntry.recipients

variable {block : EntryRecipients} {entries : List SealedEntry} {cached : List DocKey}

theorem mem_blocksOf :
    block ∈ blocksOf entries ↔ ∃ entry ∈ entries, entry.recipients = some block :=
  mem_filterMap

@[simp] theorem blocksOf_append (entries entries' : List SealedEntry) :
    blocksOf (entries ++ entries') = blocksOf entries ++ blocksOf entries' :=
  filterMap_append

/-- What the search for the newest block has found after some entries. -/
def IsNewest (blocks : List EntryRecipients) : Option (EntryRecipients × ℤ) → Prop
  | none => ∀ block ∈ blocks, block.wraps = []
  | some (newest, _) => newest ∈ blocks ∧ newest.wraps ≠ [] ∧
    ∀ block ∈ blocks, block.wraps ≠ [] → block.epoch ≤ newest.epoch

theorem IsNewest.newer {blocks : List EntryRecipients} {best : Option (EntryRecipients × ℤ)}
    (h : IsNewest blocks best) (recipients : Option EntryRecipients) (createdAt : ℤ) :
    IsNewest (blocks ++ recipients.toList) (newerRecipientBlock best recipients createdAt) := by
  cases recipients with
  | none => simpa [newerRecipientBlock] using h
  | some recipients =>
    rw [newerRecipientBlock.eq_def]
    dsimp only
    by_cases hempty : recipients.wraps.isEmpty = true
    · rw [if_pos hempty]
      rw [List.isEmpty_iff] at hempty
      cases best with
      | none =>
        intro block hblock
        rcases mem_append.mp hblock with hold | hnew
        · exact h block hold
        · rw [mem_singleton.mp hnew, hempty]
      | some best =>
        obtain ⟨hmem, hwraps, hmax⟩ := h
        refine ⟨mem_append_left _ hmem, hwraps, fun block hblock hne => ?_⟩
        rcases mem_append.mp hblock with hold | hnew
        · exact hmax block hold hne
        · exact absurd (mem_singleton.mp hnew ▸ hempty) hne
    · rw [if_neg hempty]
      rw [List.isEmpty_iff] at hempty
      cases best with
      | none =>
        refine ⟨mem_append_right _ (mem_singleton_self _), hempty, ?_⟩
        intro block hblock hne
        rcases mem_append.mp hblock with hold | hnew
        · exact absurd (h block hold) hne
        · rw [mem_singleton.mp hnew]
      | some best =>
        obtain ⟨hmem, hwraps, hmax⟩ := h
        dsimp only
        split_ifs with hnewer
        · have hle : best.1.epoch ≤ recipients.epoch := by
            rcases Bool.or_eq_true_iff.mp hnewer with hlt | heq
            · exact (of_decide_eq_true hlt).le
            · exact (of_decide_eq_true (Bool.and_eq_true_iff.mp heq).1).ge
          refine ⟨mem_append_right _ (mem_singleton_self _), hempty, ?_⟩
          intro block hblock hne
          rcases mem_append.mp hblock with hold | hnew
          · exact (hmax block hold hne).trans hle
          · rw [mem_singleton.mp hnew]
        · refine ⟨mem_append_left _ hmem, hwraps, fun block hblock hne => ?_⟩
          rcases mem_append.mp hblock with hold | hnew
          · exact hmax block hold hne
          · rw [mem_singleton.mp hnew]
            by_contra hlt
            exact hnewer (by simp [not_le.mp hlt])

theorem isNewest_foldl (entries : List SealedEntry) : IsNewest (blocksOf entries)
    ((entries.map fun entry => (entry.recipients, entry.createdAt)).foldl
      (fun best entry => newerRecipientBlock best entry.1 entry.2) none) := by
  induction entries using List.reverseRecOn with
  | nil => exact fun block hblock => nomatch hblock
  | append_singleton entries entry ih =>
    rw [map_append, foldl_append, blocksOf_append]
    have hblocks : blocksOf [entry] = entry.recipients.toList := by
      rw [blocksOf]
      cases h : entry.recipients with
      | none => rw [filterMap_cons_none h]; rfl
      | some block => rw [filterMap_cons_some h]; rfl
    exact ih.newer _ _

/-- **The newest block is one of the highest epoch.** -/
theorem newestBlock_spec {newest : EntryRecipients}
    (h : newestBlock entries = some newest) : newest ∈ blocksOf entries ∧ newest.wraps ≠ [] ∧
      ∀ block ∈ blocksOf entries, block.wraps ≠ [] → block.epoch ≤ newest.epoch := by
  rw [newestBlock, newestRecipientBlock, map_eq_some_iff] at h
  obtain ⟨best, hbest, rfl⟩ := h
  have hspec := isNewest_foldl entries
  rw [hbest] at hspec
  exact hspec

theorem exists_newestBlock (hblock : block ∈ blocksOf entries) (hwraps : block.wraps ≠ []) :
    ∃ newest, newestBlock entries = some newest := by
  have hspec := isNewest_foldl entries
  rw [newestBlock, newestRecipientBlock]
  revert hspec
  cases (entries.map fun entry => (entry.recipients, entry.createdAt)).foldl
      (fun best entry => newerRecipientBlock best entry.1 entry.2) none with
  | none => exact fun hspec => absurd (hspec block hblock) hwraps
  | some best => exact fun _ => ⟨best.1, rfl⟩

theorem newerRecipientBlock_eq (best : Option (EntryRecipients × ℤ))
    (recipients : Option EntryRecipients) (createdAt : ℤ) :
    newerRecipientBlock best recipients createdAt = best
      ∨ (newerRecipientBlock best recipients createdAt).map Prod.fst = recipients := by
  rw [newerRecipientBlock.eq_def]
  cases recipients with
  | none => exact .inl rfl
  | some recipients =>
    dsimp only
    split_ifs
    · exact .inl rfl
    · cases best with
      | none => exact .inr rfl
      | some best =>
        dsimp only
        split_ifs
        · exact .inr rfl
        · exact .inl rfl

theorem newestBlock_concat (entries : List SealedEntry) (entry : SealedEntry) :
    newestBlock (entries ++ [entry]) = newestBlock entries
      ∨ newestBlock (entries ++ [entry]) = entry.recipients := by
  rw [newestBlock, newestBlock, newestRecipientBlock, newestRecipientBlock, map_append,
    foldl_append]
  rcases newerRecipientBlock_eq ((entries.map fun entry => (entry.recipients, entry.createdAt)).foldl
    (fun best entry => newerRecipientBlock best entry.1 entry.2) none) entry.recipients
    entry.createdAt with hold | hnew
  · exact .inl (congrArg (Option.map Prod.fst) hold)
  · exact .inr hnew

/-! ## Sessions -/

/-- A session that has as many keys as the newest block has an epoch keeps what it has. -/
def Skips (cached : Option (List DocKey)) (recipients : EntryRecipients) : Prop :=
  ∃ generations, cached = some generations ∧ recipients.epoch ≤ generations.length
    ∧ 0 < recipients.epoch

instance (cached : Option (List DocKey)) (recipients : EntryRecipients) :
    Decidable (Skips cached recipients) :=
  decidable_of_iff (cached.any fun generations =>
    decide (recipients.epoch ≤ generations.length ∧ 0 < recipients.epoch)) (by
      cases cached <;> simp [Skips])

theorem ingestSealedRecipients_of_skips {keys : List JSString} {cached : Option (List DocKey)}
    {recipients : EntryRecipients} (h : Skips cached recipients) :
    ingestSealedRecipients keys cached recipients = cached := by
  obtain ⟨generations, rfl, hle, hpos⟩ := h
  exact if_pos (by simp [hle, hpos])

/-- **What a device of a recipient finds**: what it has, or what the block packs. -/
theorem ingestSealedRecipients_of_not_skips {keys : List JSString}
    {cached : Option (List DocKey)} {recipients : EntryRecipients}
    (h : ¬ Skips cached recipients) (hkeys : ∃ key ∈ keys, recipients.IsWrappedFor key) :
    ingestSealedRecipients keys cached recipients = some recipients.generations.reverse := by
  obtain ⟨key, hkey, hwrapped⟩ := hkeys
  rw [ingestSealedRecipients, if_neg, if_neg]
  · obtain ⟨generations, hfound⟩ : ∃ generations,
        keys.findSome? (openBundle recipients) = some generations := by
      rw [← isSome_iff_exists, findSome?_isSome_iff]
      exact ⟨key, hkey, by rw [openBundle_eq_some_iff.mpr ⟨hwrapped, rfl⟩]; rfl⟩
    obtain ⟨other, -, hopen⟩ := exists_of_findSome?_eq_some hfound
    rw [hfound, (openBundle_eq_some_iff.mp hopen).2]
  · rw [List.isEmpty_iff]
    exact ne_nil_of_mem hkey
  · cases cached with
    | none => exact Bool.false_ne_true
    | some generations =>
      intro hboth
      simp only [any_some, Bool.and_eq_true, decide_eq_true_eq] at hboth
      exact h ⟨generations, rfl, hboth⟩

/-- Keys that are as many as the epoch of the newest block. -/
def UpToDate (entries : List SealedEntry) (cached : List DocKey) : Prop :=
  ∃ newest, newestBlock entries = some newest ∧ newest.epoch ≤ cached.length ∧ 0 < newest.epoch

theorem UpToDate.cons
    (h : UpToDate entries cached) (key : DocKey) : UpToDate entries (key :: cached) := by
  obtain ⟨newest, hnewest, hle, hpos⟩ := h
  exact ⟨newest, hnewest, hle.trans (Nat.le_succ _), hpos⟩

/-- **A session with as many keys keeps them.** -/
theorem UpToDate.ingest (h : UpToDate entries cached) (keys : List JSString) :
    ingestSealedFromEntries keys (some cached) entries = some cached := by
  obtain ⟨newest, hnewest, hle, hpos⟩ := h
  rw [ingestSealedFromEntries, hnewest]
  exact ingestSealedRecipients_of_skips ⟨cached, rfl, hle, hpos⟩

/-- A block fits the generations of the newest epoch. -/
structure BlockOf (generations : List DocKey) (block : EntryRecipients) : Prop where
  wraps : block.wraps ≠ []
  epoch_le : block.epoch ≤ generations.length
  subset : block.generations ⊆ generations
  perm : block.epoch = generations.length → block.generations.Perm generations

/-- The keys of a session fit the generations of the newest epoch. -/
structure CacheOf (generations cached : List DocKey) : Prop where
  length_le : cached.length ≤ generations.length
  perm : cached.length = generations.length → cached.Perm generations

theorem CacheOf.of_perm {generations : List DocKey} (h : cached.Perm generations) :
    CacheOf generations cached :=
  ⟨h.length_eq.le, fun _ => h⟩

/-- The generations stay the same, or a key is put before them. -/
def Grows (generations generations' : List DocKey) : Prop :=
  generations' = generations ∨ ∃ key kept, kept.Perm generations ∧ generations' = key :: kept

namespace Grows

variable {generations generations' : List DocKey}

section

variable (h : Grows generations generations')

include h

theorem subset : generations ⊆ generations' := by
  rcases h with rfl | ⟨key, kept, hperm, rfl⟩
  · exact List.Subset.refl _
  · exact fun k hk => mem_cons_of_mem _ (hperm.mem_iff.mpr hk)

theorem length_le :
    generations.length ≤ generations'.length := by
  rcases h with rfl | ⟨key, kept, hperm, rfl⟩
  · exact le_rfl
  · rw [length_cons, hperm.length_eq]
    exact Nat.le_succ _

/-- The blocks and the sessions of the epochs before are not of the newest one. -/
theorem perm_of_perm {l : List DocKey} {n : ℕ} (hn : n ≤ generations.length)
    (hperm : n = generations.length → l.Perm generations) (hn' : n = generations'.length) :
    l.Perm generations' := by
  rcases h with rfl | ⟨key, kept, hkept, rfl⟩
  · exact hperm hn'
  · rw [length_cons, hkept.length_eq] at hn'
    omega

theorem blockOf (hblock : BlockOf generations block) : BlockOf generations' block where
  wraps := hblock.wraps
  epoch_le := hblock.epoch_le.trans h.length_le
  subset := List.Subset.trans hblock.subset h.subset
  perm := h.perm_of_perm hblock.epoch_le hblock.perm

theorem cacheOf (hcached : CacheOf generations cached) : CacheOf generations' cached where
  length_le := hcached.length_le.trans h.length_le
  perm := h.perm_of_perm hcached.length_le hcached.perm

end

end Grows

/-- The document in memory has a block of the newest epoch, unless others have changed it since. -/
def FitsBlock (generations : List DocKey) (entries : List SealedEntry) (session : SealedSession) :
    Prop :=
  ∀ block, session.sealedRecipients = some block → session.seen ≤ entries.length ∧
    ((entries.drop session.seen).any SealedEntry.changes = true
      ∨ block ∈ blocksOf entries ∧ block.epoch = generations.length)

theorem FitsBlock.append {generations generations' : List DocKey}
    {session : SealedSession} (h : FitsBlock generations entries session) {entry : SealedEntry}
    (hentry : entry.changes = true ∨ generations' = generations) :
    FitsBlock generations' (entries ++ [entry]) session := by
  intro block hblock
  obtain ⟨hle, hfits⟩ := h block hblock
  refine ⟨by rw [length_append]; omega, ?_⟩
  rw [drop_append_of_le_length hle, any_append, blocksOf_append]
  rcases hfits with hchanged | ⟨hmem, hepoch⟩
  · exact .inl (by rw [hchanged, Bool.true_or])
  · rcases hentry with hchanges | rfl
    · exact .inl (by simp [hchanges])
    · exact .inr ⟨mem_append_left _ hmem, hepoch⟩

section Invariant

variable {S : Type}

/-- The device of the session is one of a current recipient. -/
def SealedState.IsRecipient (state : SealedState S) (op : SealedOp S) : Prop :=
  ∀ newest ∈ newestBlock state.entries, ∃ key ∈ op.write.keys, newest.IsWrappedFor key

instance (state : SealedState S) (op : SealedOp S) : Decidable (state.IsRecipient op) :=
  decidable_of_iff ((newestBlock state.entries).all fun newest =>
    decide (∃ key ∈ op.write.keys, newest.IsWrappedFor key)) (by
      rw [IsRecipient]
      cases newestBlock state.entries <;> simp)

/-- What the session has before it looks at the newest block. -/
def SealedState.cachedBefore (state : SealedState S) (op : SealedOp S) : Option (List DocKey) :=
  if op.opening = .fresh then none else (state.sessions op.session).sealedGenerations

/-- An operation generates a new key: it is a change of the recipients that removes somebody. -/
def SealedState.Rotates (state : SealedState S) (op : SealedOp S) : Prop :=
  ∃ change plan, op.action = .mutateRecipients change
    ∧ change.plan state.encryptFor (state.opened op) = .ok plan ∧ plan.removedStableIds ≠ []

variable {change : RecipientChange} {op : SealedOp S}

variable {plan : RecipientPlan}

theorem SealedState.rotates_iff {state : SealedState S}
    (haction : op.action = .mutateRecipients change)
    (hplan : change.plan state.encryptFor (state.opened op) = .ok plan) :
    state.Rotates op ↔ plan.removedStableIds ≠ [] := by
  constructor
  · rintro ⟨change', plan', haction', hplan', hremoved⟩
    obtain rfl := mutateRecipients.inj (haction.symm.trans haction')
    obtain rfl := Except.ok.inj (hplan.symm.trans hplan')
    exact hremoved
  · exact fun hremoved => ⟨change, plan, haction, hplan, hremoved⟩

theorem SealedState.not_rotates {state : SealedState S}
    (haction : ∀ change, op.action ≠ .mutateRecipients change) : ¬ state.Rotates op := by
  rintro ⟨change, -, hmutates, -⟩
  exact haction change hmutates

instance (state : SealedState S) (op : SealedOp S) : Decidable (state.Rotates op) :=
  match haction : op.action with
  | .mutateRecipients change =>
    match hplan : change.plan state.encryptFor (state.opened op) with
    | .ok plan =>
      decidable_of_iff (plan.removedStableIds ≠ []) (rotates_iff haction hplan).symm
    | .error message => isFalse fun ⟨change', plan, haction', hplan', _⟩ => by
      obtain rfl := mutateRecipients.inj (haction.symm.trans haction')
      exact nomatch hplan.symm.trans hplan'
  | .changeDoc | .applyPatch | .addData =>
    isFalse (not_rotates fun change hmutates => nomatch haction.symm.trans hmutates)

/-- **What holds of a sealed document**: the generations of the newest epoch are what its blocks
pack and what its sessions have, the failed ones excepted. -/
structure Holds (failed : S → Prop) (state : SealedState S) (generations : List DocKey) :
    Prop where
  newest : ∃ block ∈ blocksOf state.entries, block.epoch = generations.length
  nonempty : generations ≠ []
  blocks : ∀ block ∈ blocksOf state.entries, BlockOf generations block
  caches : ∀ session, ¬ failed session → ∀ cached,
    (state.sessions session).sealedGenerations = some cached → CacheOf generations cached
  fits : ∀ session, FitsBlock generations state.entries (state.sessions session)
  keys : ∀ entry ∈ state.entries, entry.key ∈ generations

namespace Holds

variable {failed : S → Prop} {state : SealedState S} {generations : List DocKey}

section

variable (h : Holds failed state generations)

include h

theorem exists_newest : ∃ newest,
    newestBlock state.entries = some newest ∧ newest ∈ blocksOf state.entries
      ∧ newest.epoch = generations.length := by
  obtain ⟨block, hblock, hepoch⟩ := h.newest
  have hwraps := (h.blocks block hblock).wraps
  obtain ⟨newest, hnewest⟩ := exists_newestBlock hblock hwraps
  obtain ⟨hmem, -, hmax⟩ := newestBlock_spec hnewest
  refine ⟨newest, hnewest, hmem, le_antisymm (h.blocks newest hmem).epoch_le ?_⟩
  exact hepoch ▸ hmax block hblock hwraps

theorem length_pos : 0 < generations.length :=
  length_pos_of_ne_nil h.nonempty

/-- The keys of the newest epoch are up to date. -/
theorem upToDate (hperm : cached.Perm generations) : UpToDate state.entries cached := by
  obtain ⟨newest, hnewest, -, hepoch⟩ := h.exists_newest
  exact ⟨newest, hnewest, (hepoch.trans hperm.length_eq.symm).le, hepoch ▸ h.length_pos⟩

/-- **A session that comes to the document has the generations of the newest epoch**, in the order
in which it has kept them or, when it unpacks them, the other way round. -/
theorem opened (hrecipient : state.IsRecipient op)
    (hreopens : failed op.session → op.opening = .fresh) :
    ∃ newest, newestBlock state.entries = some newest ∧ newest ∈ blocksOf state.entries
      ∧ newest.epoch = generations.length
      ∧ ∃ cached, (state.opened op).sealedGenerations = some cached ∧ cached.Perm generations
        ∧ (¬ failed op.session ∧ (state.sessions op.session).sealedGenerations = some cached
          ∨ cached = newest.generations.reverse ∧ ¬ Skips (state.cachedBefore op) newest) := by
  obtain ⟨newest, hnewest, hmem, hepoch⟩ := h.exists_newest
  refine ⟨newest, hnewest, hmem, hepoch, ?_⟩
  have hopened : (state.opened op).sealedGenerations
      = ingestSealedRecipients op.write.keys (state.cachedBefore op) newest := by
    change ingestSealedFromEntries op.write.keys (state.cachedBefore op) state.entries = _
    rw [ingestSealedFromEntries, hnewest]
  rw [hopened]
  by_cases hskips : Skips (state.cachedBefore op) newest
  · rw [ingestSealedRecipients_of_skips hskips]
    obtain ⟨cached, hcached, hle, -⟩ := hskips
    have hopening : op.opening ≠ .fresh := fun hfresh => by
      rw [cachedBefore, if_pos hfresh] at hcached
      cases hcached
    rw [cachedBefore, if_neg hopening] at hcached
    have hfailed : ¬ failed op.session := fun hf => hopening (hreopens hf)
    have hfits := h.caches _ hfailed cached hcached
    refine ⟨cached, ?_, hfits.perm (le_antisymm hfits.length_le (hepoch ▸ hle)),
      .inl ⟨hfailed, hcached⟩⟩
    rw [cachedBefore, if_neg hopening, hcached]
  · rw [ingestSealedRecipients_of_not_skips hskips (hrecipient newest hnewest)]
    refine ⟨_, rfl, ?_, .inr ⟨rfl, hskips⟩⟩
    exact (reverse_perm _).trans ((h.blocks newest hmem).perm hepoch)

/-- The block that the document has in memory is one of the newest epoch. -/
theorem opened_sealedRecipients (hblock : (state.opened op).sealedRecipients = some block) :
    block ∈ blocksOf state.entries ∧ block.epoch = generations.length := by
  obtain ⟨newest, hnewest, hmem, hepoch⟩ := h.exists_newest
  simp only [SealedState.opened, openSession] at hblock
  cases hopening : op.opening with
  | fresh | loaded =>
    rw [hopening] at hblock
    obtain rfl := some.inj (hnewest.symm.trans hblock)
    exact ⟨hmem, hepoch⟩
  | restored =>
    rw [hopening] at hblock
    exact nomatch hblock
  | cached =>
    rw [hopening] at hblock
    split_ifs at hblock with hchanged
    obtain ⟨-, hfits⟩ := h.fits op.session block hblock
    exact hfits.resolve_left hchanged

/-- **The keys and the epoch of a plan**: those of the session, or a new key before them. -/
theorem planned (hcached : (state.opened op).sealedGenerations = some cached)
    (hperm : cached.Perm generations)
    (hplan : change.plan state.encryptFor (state.opened op) = .ok plan) :
    plan.removedStableIds = [] ∧ plan.generations = cached ∧ plan.epoch = generations.length
      ∨ plan.removedStableIds ≠ [] ∧ plan.generations = change.nextDek :: cached
        ∧ plan.epoch = generations.length + 1 := by
  obtain ⟨resolved, existing, hspec⟩ := RecipientChange.plan_spec hplan
  have hgenerations := hspec.generations
  have hepoch := hspec.epoch
  have hkept : ((state.opened op).sealedRecipients.map epoch).getD cached.length
      = generations.length := by
    cases hblock : (state.opened op).sealedRecipients with
    | none => exact hperm.length_eq
    | some block => exact (h.opened_sealedRecipients hblock).2
  rw [hcached, getD_some] at hgenerations hepoch
  rw [hkept] at hepoch
  by_cases hremoved : plan.removedStableIds = []
  · rw [hremoved] at hgenerations hepoch
    exact .inl ⟨hremoved, hgenerations, hepoch⟩
  · have hempty : ¬ plan.removedStableIds.isEmpty = true := mt List.isEmpty_iff.mp hremoved
    rw [if_neg hempty] at hgenerations hepoch
    exact .inr ⟨hremoved, hgenerations, hepoch⟩

end

variable [DecidableEq S]

/-- Nothing is written. -/
theorem kept (h : Holds failed state generations) {session : S} {replaced : SealedSession}
    {fails : Prop} (hcache : ¬ fails → ∀ cached, replaced.sealedGenerations = some cached →
      CacheOf generations cached)
    (hfits : FitsBlock generations state.entries replaced) :
    Holds (update failed session fails)
      { state with sessions := update state.sessions session replaced } generations where
  newest := h.newest
  nonempty := h.nonempty
  blocks := h.blocks
  caches := by
    intro other
    by_cases hother : other = session
    · subst hother
      simpa only [update_self] using hcache
    · simpa only [update_of_ne hother] using h.caches other
  fits := by
    intro other
    by_cases hother : other = session
    · subst hother
      simpa only [update_self] using hfits
    · simpa only [update_of_ne hother] using h.fits other
  keys := h.keys

/-- An entry is written. -/
theorem appended (h : Holds failed state generations) {generations' : List DocKey}
    (hgrows : Grows generations generations') {session : S} {entry : SealedEntry}
    {block? : Option EntryRecipients} {outdated : Bool} {encryptFor : EncryptFor}
    (hkey : entry.key ∈ generations') (hchanges : entry.changes = true ∨ generations' = generations)
    (hrecipients : ∀ block, entry.recipients = some block →
      BlockOf generations' block ∧ block.epoch = generations'.length)
    (hnewest : entry.recipients.isSome ∨ generations' = generations)
    (hcached : cached.Perm generations')
    (hblock : ∀ block, block? = some block → entry.recipients = some block
      ∨ block ∈ blocksOf state.entries ∧ block.epoch = generations'.length) :
    Holds (update failed session False)
      { entries := state.entries ++ [entry]
        encryptFor
        sessions := update state.sessions session
          ⟨some cached, block?, state.entries.length + 1, outdated⟩ } generations' where
  newest := by
    rw [blocksOf_append]
    rcases hnewest with hsome | rfl
    · obtain ⟨block, hblock⟩ := isSome_iff_exists.mp hsome
      refine ⟨block, mem_append_right _ (mem_blocksOf.mpr ⟨entry, by simp, hblock⟩), ?_⟩
      exact (hrecipients block hblock).2
    · obtain ⟨block, hmem, hepoch⟩ := h.newest
      exact ⟨block, mem_append_left _ hmem, hepoch⟩
  nonempty := ne_nil_of_mem hkey
  blocks := by
    intro block hmem
    rw [blocksOf_append] at hmem
    rcases mem_append.mp hmem with hold | hnew
    · exact hgrows.blockOf (h.blocks block hold)
    · obtain ⟨other, hother, hblock⟩ := mem_blocksOf.mp hnew
      rw [mem_singleton.mp hother] at hblock
      exact (hrecipients block hblock).1
  caches := by
    intro other
    dsimp only
    by_cases hother : other = session
    · subst hother
      rw [update_self, update_self]
      rintro - _ ⟨⟩
      exact CacheOf.of_perm hcached
    · rw [update_of_ne hother, update_of_ne hother]
      exact fun hf other hcached => hgrows.cacheOf (h.caches _ hf other hcached)
  fits := by
    intro other
    dsimp only
    by_cases hother : other = session
    · subst hother
      rw [update_self]
      intro block hmem
      refine ⟨by simp, .inr ?_⟩
      rw [blocksOf_append]
      rcases hblock block hmem with hentry | ⟨hold, hepoch⟩
      · refine ⟨mem_append_right _ (mem_blocksOf.mpr ⟨entry, by simp, hentry⟩), ?_⟩
        exact (hrecipients block hentry).2
      · exact ⟨mem_append_left _ hold, hepoch⟩
    · rw [update_of_ne hother]
      exact (h.fits other).append hchanges
  keys := by
    intro other hother
    rcases mem_append.mp hother with hold | hnew
    · exact hgrows.subset (h.keys other hold)
    · rw [mem_singleton.mp hnew]
      exact hkey

end Holds

/-! ## What an operation does -/

/-- What the operation writes is stored: of a change of the recipients, `Automerge.change` accepts
the document in memory. -/
def SealedState.persists (state : SealedState S) (op : SealedOp S) : Bool :=
  op.write.stored && !(op.action.mutates && (state.opened op).outdated)

theorem SealedState.persists_of_mutates (state : SealedState S)
    (haction : op.action = .mutateRecipients change) :
    state.persists op = (op.write.stored && !(state.opened op).outdated) := by
  rw [persists, haction, mutates, Bool.true_and]

theorem SealedState.persists_of_not_mutates (state : SealedState S)
    (haction : ∀ change, op.action ≠ .mutateRecipients change) :
    state.persists op = op.write.stored := by
  rw [persists]
  cases hcase : op.action with
  | changeDoc | applyPatch | addData => exact Bool.and_true _
  | mutateRecipients change => exact absurd hcase (haction change)

/-- A new key was generated, and the entry that carries it was not stored. -/
def SealedState.RotationFails (state : SealedState S) (op : SealedOp S) : Prop :=
  state.Rotates op ∧ state.persists op = false

instance (state : SealedState S) (op : SealedOp S) : Decidable (state.RotationFails op) :=
  inferInstanceAs (Decidable (_ ∧ _))

/-- The operation stores an entry. -/
def SealedState.Stores (state : SealedState S) (op : SealedOp S) : Prop :=
  state.persists op = true ∧ ∀ change, op.action = .mutateRecipients change →
    ∃ plan, change.plan state.encryptFor (state.opened op) = .ok plan

theorem SealedState.rotationFails_of_not_stores {state : SealedState S}
    (hstores : ¬ state.Stores op) (hrotates : state.Rotates op) : state.RotationFails op := by
  refine ⟨hrotates, Bool.eq_false_iff.mpr fun hstored => hstores ⟨hstored, ?_⟩⟩
  obtain ⟨change, plan, haction, hplan, -⟩ := hrotates
  intro change' haction'
  obtain rfl := mutateRecipients.inj (haction.symm.trans haction')
  exact ⟨plan, hplan⟩

/-- The operation stores a change of the recipients whose block is the newest. -/
def SealedState.Publishes (state : SealedState S) (op : SealedOp S) : Prop :=
  state.persists op = true ∧ ∃ change plan, op.action = .mutateRecipients change
    ∧ change.plan state.encryptFor (state.opened op) = .ok plan
    ∧ newestRecipientBlock
        ((state.entries.map fun entry => (entry.recipients, entry.createdAt))
          ++ [(some (sealToTargets plan.generations plan.remaining plan.epoch), (op.write.now : ℤ))])
      = some (sealToTargets plan.generations plan.remaining plan.epoch)

theorem SealedState.publishes_iff (state : SealedState S)
    (haction : op.action = .mutateRecipients change)
    (hplan : change.plan state.encryptFor (state.opened op) = .ok plan) :
    state.Publishes op ↔ state.persists op = true ∧ newestRecipientBlock
        ((state.entries.map fun entry => (entry.recipients, entry.createdAt))
          ++ [(some (sealToTargets plan.generations plan.remaining plan.epoch), (op.write.now : ℤ))])
      = some (sealToTargets plan.generations plan.remaining plan.epoch) := by
  constructor
  · rintro ⟨hstored, change', plan', haction', hplan', hnewest⟩
    obtain rfl := mutateRecipients.inj (haction.symm.trans haction')
    obtain rfl := Except.ok.inj (hplan.symm.trans hplan')
    exact ⟨hstored, hnewest⟩
  · exact fun ⟨hstored, hnewest⟩ => ⟨hstored, change, plan, haction, hplan, hnewest⟩

instance (state : SealedState S) (op : SealedOp S) : Decidable (state.Publishes op) :=
  match haction : op.action with
  | .mutateRecipients change =>
    match hplan : change.plan state.encryptFor (state.opened op) with
    | .ok plan => decidable_of_iff _ (state.publishes_iff haction hplan).symm
    | .error message => isFalse fun ⟨_, change', plan, haction', hplan', _⟩ => by
      obtain rfl := mutateRecipients.inj (haction.symm.trans haction')
      exact nomatch hplan.symm.trans hplan'
  | .changeDoc | .applyPatch | .addData =>
    isFalse fun ⟨_, _, _, hmutates, _⟩ => nomatch haction.symm.trans hmutates

/-- **What an operation does**, of a session that has some keys when it acts: it writes nothing; or
an entry under the first of its keys; or one that changes the recipients. -/
inductive Outcome [DecidableEq S] (state : SealedState S) (op : SealedOp S)
    (generations cached : List DocKey) : SealedState S → List DocKey → Prop where
  | kept (session : SealedSession)
    (hcached : session.sealedGenerations = some cached ∨ state.RotationFails op)
    (hblock : session.sealedRecipients = (state.opened op).sealedRecipients)
    (hseen : session.seen = state.entries.length)
    (hstores : ¬ state.Stores op) :
    Outcome state op generations cached
      { state with sessions := update state.sessions op.session session } generations
  | written (key : DocKey) (rest : List DocKey) (recipients : Option EntryRecipients)
    (changes outdated : Bool) (hcached : cached = key :: rest)
    (haction : ∀ change, op.action ≠ .mutateRecipients change) (hstored : state.persists op = true)
    (hblock : ∀ block, recipients = some block →
      (state.opened op).sealedRecipients = some block) :
    Outcome state op generations cached
      { state with
        entries := state.entries ++ [⟨recipients, op.write.now, key, changes⟩]
        sessions := update state.sessions op.session
          ⟨some (key :: rest), recipients.or (state.opened op).sealedRecipients,
            state.entries.length + 1, outdated⟩ } generations
  | changed (change : RecipientChange) (plan : RecipientPlan) (key : DocKey) (rest : List DocKey)
    (haction : op.action = .mutateRecipients change)
    (hplan : change.plan state.encryptFor (state.opened op) = .ok plan)
    (hgenerations : plan.generations = key :: rest) (hstored : state.persists op = true) :
    Outcome state op generations cached
      { entries := state.entries ++ [⟨some (sealToTargets plan.generations plan.remaining
          plan.epoch), op.write.now, key, true⟩]
        encryptFor := plan.apply op.write.now change.signer state.encryptFor
        sessions := update state.sessions op.session
          ⟨some (key :: rest), some (sealToTargets plan.generations plan.remaining plan.epoch),
            state.entries.length + 1, false⟩ }
      (if plan.removedStableIds = [] then generations else plan.generations)

section Outcome

variable [DecidableEq S] {state : SealedState S}

/-- What persisting an entry does, for a session whose keys are up to date. -/
theorem SealedState.persist_eq {session : SealedSession} {key : DocKey}
    {rest : List DocKey} (hsession : session.sealedGenerations = some (key :: rest))
    (hdate : UpToDate state.entries (key :: rest)) (recipients : Option EntryRecipients)
    (changes : Bool) (encryptFor : EncryptFor) :
    state.persist op session recipients changes encryptFor =
      if op.write.stored then
        { entries := state.entries ++ [⟨recipients, op.write.now, key, changes⟩]
          encryptFor
          sessions := update state.sessions op.session
            ⟨some (key :: rest), recipients.or session.sealedRecipients,
              state.entries.length + 1, session.outdated && !changes⟩ }
      else
        { state with
          sessions := update state.sessions op.session { session with
            outdated := if changes then op.write.outdates else session.outdated } } := by
  rw [persist, persistEntry, hsession, hdate.ingest]
  cases op.write.stored with
  | true => rfl
  | false =>
    refine congrArg₂ (mk · state.encryptFor ·) (append_nil _) ?_
    exact congrArg (update state.sessions op.session) (by rw [← hsession])

/-- **Every operation has one of these outcomes**, where the keys of the session are up to date. -/
theorem SealedState.outcome {key : DocKey} {rest : List DocKey}
    (hcached : (state.opened op).sealedGenerations = some (key :: rest))
    (hdate : UpToDate state.entries (key :: rest)) (generations : List DocKey) :
    ∃ generations', Outcome state op generations (key :: rest) (state.step op) generations' := by
  have hseen : (state.opened op).seen = state.entries.length := rfl
  have hwrite : ∀ recipients changes, (∀ change, op.action ≠ .mutateRecipients change) →
      (∀ block, recipients = some block → (state.opened op).sealedRecipients = some block) →
      ∃ generations', Outcome state op generations (key :: rest)
        (state.persist op (state.opened op) recipients changes state.encryptFor) generations' := by
    intro recipients changes haction hblock
    have hpersists := state.persists_of_not_mutates haction
    rw [persist_eq hcached hdate]
    by_cases hstored : op.write.stored = true
    · rw [if_pos hstored]
      exact ⟨_, .written key rest recipients changes _ rfl haction (hpersists.trans hstored) hblock⟩
    · rw [if_neg hstored]
      exact ⟨_, .kept _ (.inl hcached) rfl hseen fun h => hstored (hpersists.symm.trans h.1)⟩
  rw [step]
  cases haction : op.action with
  | changeDoc =>
    exact hwrite _ _ (by simp [haction]) fun _ => id
  | applyPatch | addData =>
    exact hwrite _ _ (by simp [haction]) nofun
  | mutateRecipients change =>
    dsimp only
    cases hplan : change.plan state.encryptFor (state.opened op) with
    | error message =>
      refine ⟨_, .kept _ (.inl hcached) rfl hseen ?_⟩
      rintro ⟨-, hplans⟩
      obtain ⟨plan, hplan'⟩ := hplans change haction
      exact nomatch hplan.symm.trans hplan'
    | ok plan =>
      obtain ⟨resolved, existing, hspec⟩ := RecipientChange.plan_spec hplan
      have hgenerations := hspec.generations
      rw [hcached, getD_some] at hgenerations
      obtain ⟨key', rest', hcons, hdate'⟩ : ∃ key' rest', plan.generations = key' :: rest'
          ∧ UpToDate state.entries (key' :: rest') := by
        rw [hgenerations]
        split_ifs
        · exact ⟨key, rest, rfl, hdate⟩
        · exact ⟨_, _, rfl, hdate.cons _⟩
      have hpersists := state.persists_of_mutates haction
      -- nothing is stored, and the keys of the plan are kept
      have hkept : state.persists op = false →
          some plan.generations = some (key :: rest) ∨ state.RotationFails op := by
        intro hfalse
        by_cases hremoved : plan.removedStableIds = []
        · exact .inl (congrArg some (hgenerations.trans (if_pos (by rw [hremoved]; rfl))))
        · exact .inr ⟨⟨change, plan, haction, hplan, hremoved⟩, hfalse⟩
      have hnot : state.persists op = false → ¬ state.Stores op := fun hfalse hstores =>
        Bool.noConfusion (hfalse.symm.trans hstores.1)
      dsimp only
      by_cases houtdated : (state.opened op).outdated = true
      · rw [if_pos houtdated]
        have hfalse : state.persists op = false := by
          rw [hpersists, houtdated, Bool.not_true, Bool.and_false]
        exact ⟨_, .kept _ (hkept hfalse) rfl hseen (hnot hfalse)⟩
      · rw [if_neg houtdated, persist_eq (congrArg some hcons) hdate']
        rw [Bool.eq_false_of_not_eq_true houtdated] at hpersists ⊢
        rw [Bool.not_false, Bool.and_true] at hpersists
        by_cases hstored : op.write.stored = true
        · rw [if_pos hstored]
          exact ⟨_, .changed change plan key' rest' haction hplan hcons (hpersists.trans hstored)⟩
        · rw [if_neg hstored]
          have hfalse := hpersists.trans (Bool.eq_false_of_not_eq_true hstored)
          exact ⟨_, .kept _ (hkept hfalse) rfl hseen (hnot hfalse)⟩

end Outcome

namespace Holds

variable {failed : S → Prop} {state : SealedState S} {generations : List DocKey}
  [DecidableEq S]

theorem outcome (h : Holds failed state generations)
    (hcached : (state.opened op).sealedGenerations = some cached)
    (hperm : cached.Perm generations) :
    ∃ generations', Outcome state op generations cached (state.step op) generations' := by
  obtain ⟨key, rest, rfl⟩ : ∃ key rest, cached = key :: rest :=
    exists_cons_of_ne_nil fun hnil => h.nonempty (nil_perm.mp (hnil ▸ hperm))
  exact outcome hcached (h.upToDate hperm) generations

/-- **An operation keeps what holds of the document**, of a session that has the generations of the
newest epoch. -/
theorem step (h : Holds failed state generations)
    (hcached : (state.opened op).sealedGenerations = some cached)
    (hperm : cached.Perm generations) {state' : SealedState S} {generations' : List DocKey}
    (houtcome : Outcome state op generations cached state' generations') :
    Grows generations generations'
      ∧ Holds (update failed op.session (state.RotationFails op)) state' generations' := by
  cases houtcome with
  | kept session hkept hblock hseen hstores =>
    refine ⟨.inl rfl, h.kept ?_ ?_⟩
    · intro hfails other hother
      rw [hkept.resolve_right hfails] at hother
      exact some.inj hother ▸ CacheOf.of_perm hperm
    · intro block hmem
      rw [hblock] at hmem
      exact ⟨hseen.le, .inr (h.opened_sealedRecipients hmem)⟩
  | written key rest recipients changes outdated hcons haction hstored hblock =>
    have hfails : state.RotationFails op = False :=
      eq_false fun hfails => not_rotates haction hfails.1
    rw [hfails]
    have hrecipients : ∀ block, (state.opened op).sealedRecipients = some block →
        block ∈ blocksOf state.entries ∧ block.epoch = generations.length :=
      fun block => h.opened_sealedRecipients
    refine ⟨.inl rfl, h.appended (.inl rfl) ?_ (.inr rfl) ?_ (.inr rfl) (hcons ▸ hperm) ?_⟩
    · exact hperm.mem_iff.mp (hcons ▸ mem_cons_self)
    · intro block hmem
      obtain ⟨hold, hepoch⟩ := hrecipients block (hblock block hmem)
      exact ⟨h.blocks block hold, hepoch⟩
    · intro block hmem
      rcases or_eq_some_iff.mp hmem with hentry | ⟨-, hkept⟩
      · exact .inl hentry
      · exact .inr (hrecipients block hkept)
  | changed change plan key rest haction hplan hcons hstored =>
    obtain ⟨resolved, existing, hspec⟩ := RecipientChange.plan_spec hplan
    have hfails : state.RotationFails op = False :=
      eq_false fun hfails => nomatch hstored.symm.trans hfails.2
    rw [hfails]
    have hwraps : plan.remaining.map (fun target =>
        (⟨target.kind, target.keyFingerprint⟩ : EntryRecipientWrap)) ≠ [] :=
      fun hnil => hspec.remaining_ne_nil (map_eq_nil_iff.mp hnil)
    rcases h.planned hcached hperm hplan with
      ⟨hremoved, hgenerations, hepoch⟩ | ⟨hremoved, hgenerations, hepoch⟩
    · rw [if_pos hremoved]
      have hmem : key ∈ generations :=
        hperm.mem_iff.mp (hgenerations ▸ hcons ▸ mem_cons_self)
      refine ⟨.inl rfl, h.appended (.inl rfl) hmem (.inl rfl) ?_ (.inr rfl) ?_ ?_⟩
      · rintro block ⟨⟩
        refine ⟨⟨hwraps, hepoch.le, ?_, fun _ => ?_⟩, hepoch⟩
        · rw [generations_sealToTargets, hgenerations]
          exact hperm.subset
        · rw [generations_sealToTargets, hgenerations]
          exact hperm
      · exact (hcons.symm.trans hgenerations) ▸ hperm
      · exact fun block hblock => .inl hblock
    · rw [if_neg hremoved]
      have hgrows : Grows generations plan.generations :=
        .inr ⟨change.nextDek, cached, hperm, hgenerations⟩
      have hlength : plan.epoch = plan.generations.length := by
        rw [hepoch, hgenerations, length_cons, hperm.length_eq]
      refine ⟨hgrows, h.appended hgrows ?_ (.inl rfl) ?_ (.inl rfl) ?_ ?_⟩
      · rw [hcons]
        exact mem_cons_self
      · rintro block ⟨⟩
        refine ⟨⟨hwraps, hlength.le, ?_, fun _ => ?_⟩, hlength⟩
        · rw [generations_sealToTargets]
          exact List.Subset.refl _
        · rw [generations_sealToTargets]
      · rw [hcons]
      · exact fun block hblock => .inl hblock

end Holds

/-! ## Runs -/

/-- The sessions that generated a key and failed to store it, after an operation. -/
def failedAfter [DecidableEq S] (failed : S → Prop) (state : SealedState S) (op : SealedOp S) :
    S → Prop :=
  update failed op.session (state.RotationFails op)

/-- **A run in which failed sessions are started anew** before they come to the document again. -/
def Run [DecidableEq S] (allowed : SealedState S → SealedOp S → Prop) :
    (S → Prop) → SealedState S → List (SealedOp S) → Prop
  | _, _, [] => True
  | failed, state, op :: ops => allowed state op ∧ (failed op.session → op.opening = .fresh)
    ∧ Run allowed (failedAfter failed state op) (state.step op) ops

section

variable [DecidableEq S] {allowed : SealedState S → SealedOp S → Prop} {failed : S → Prop}
  {state : SealedState S} {generations : List DocKey}

theorem create_spec {session : S} {directory : RecipientDirectory} {specs : List RecipientSpec}
    {options : RecipientOptions} {dek : DocKey} {now : Timestamp} {signer : JSString}
    (h : create session directory specs options dek now signer = .ok state) :
    ∃ block : EntryRecipients, block.wraps ≠ [] ∧ block.epoch = 1 ∧ block.generations = [dek]
      ∧ state.entries = [⟨some block, now, dek, true⟩]
      ∧ state.sessions = update (fun _ => {}) session ⟨some [dek], some block, 1, false⟩ := by
  obtain ⟨resolved, hresolved, h⟩ := bind_eq_ok h
  obtain rfl := Except.ok.inj h
  have htargets := (RecipientDirectory.resolveRecipientSpecs_spec hresolved).2
  exact ⟨sealToTargets [dek] resolved.targets 1, fun hnil => htargets (map_eq_nil_iff.mp hnil),
    rfl, generations_sealToTargets _ _ _, rfl, rfl⟩

/-- **What holds of a document that was just created.** -/
theorem holds_create {session : S} {directory : RecipientDirectory} {specs : List RecipientSpec}
    {options : RecipientOptions} {dek : DocKey} {now : Timestamp} {signer : JSString}
    (h : create session directory specs options dek now signer = .ok state) :
    Holds (fun _ => False) state [dek] := by
  obtain ⟨block, hwraps, hepoch, hgenerations, hentries, hsessions⟩ := create_spec h
  have hmem : ∀ other ∈ blocksOf state.entries, other = block := by
    rw [hentries]
    exact fun other hother => mem_singleton.mp hother
  refine ⟨⟨block, by rw [hentries]; exact mem_singleton_self _, hepoch⟩, cons_ne_nil _ _,
    ?_, ?_, ?_, ?_⟩
  · intro other hother
    rw [hmem other hother]
    refine ⟨hwraps, hepoch.le, ?_, fun _ => ?_⟩
    · rw [hgenerations]
      exact List.Subset.refl _
    · rw [hgenerations]
  · intro other _ cached hcached
    rw [hsessions] at hcached
    by_cases hother : other = session
    · rw [hother, update_self] at hcached
      obtain rfl := some.inj hcached
      exact CacheOf.of_perm (List.Perm.refl _)
    · rw [update_of_ne hother] at hcached
      exact nomatch hcached
  · intro other kept hkept
    rw [hsessions, hentries] at *
    by_cases hother : other = session
    · rw [hother, update_self] at hkept ⊢
      obtain rfl := some.inj hkept
      exact ⟨le_rfl, .inr ⟨mem_singleton_self _, hepoch⟩⟩
    · rw [update_of_ne hother] at hkept
      exact nomatch hkept
  · intro entry hentry
    rw [hentries] at hentry
    rw [mem_singleton.mp hentry]
    exact mem_singleton_self _

/-- What holds of a document holds after a run of it. -/
theorem Holds.run (hallowed : ∀ state op, allowed state op → state.IsRecipient op)
    (h : Holds failed state generations) {ops : List (SealedOp S)}
    (hrun : Run allowed failed state ops) :
    ∃ failed' generations', Holds failed' (state.run ops) generations' := by
  induction ops generalizing failed state generations with
  | nil => exact ⟨failed, generations, h⟩
  | cons op ops ih =>
    obtain ⟨hop, hreopens, hrest⟩ := hrun
    obtain ⟨-, -, -, -, cached, hcached, hperm, -⟩ := h.opened (hallowed state op hop) hreopens
    obtain ⟨generations', houtcome⟩ := h.outcome hcached hperm
    exact ih (h.step hcached hperm houtcome).2 hrest

end

end Invariant

end MindooDB.Sealed
