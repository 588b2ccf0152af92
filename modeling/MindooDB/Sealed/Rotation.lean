import MindooDB.Sealed.Generations

/-!
# Sealed/Rotation — what a removed recipient can read

A removal generates a key, which is the first of the new block.  A session that unpacks that block
gets the keys the other way round, and encrypts under the oldest of them, which the removed
recipient has (`not_removedRecipients_cannotRead`).  Where nobody does, the first key of the newest
block is in no bundle of a removed recipient (`removedRecipients_cannotRead`).
-/

namespace MindooDB.Sealed

open List RecipientChange SealedState

variable {S : Type}

/-! ## The domain -/

/-- A key that is in no bundle yet. -/
def SealedState.IsNewKey (state : SealedState S) (key : DocKey) : Prop :=
  ∀ block ∈ blocksOf state.entries, key ∉ block.generations

/-- The device is one of a current recipient, and a generated key is new. -/
structure Legitimate (state : SealedState S) (op : SealedOp S) : Prop where
  recipient : state.IsRecipient op
  newKey : ∀ change, op.action = .mutateRecipients change → state.IsNewKey change.nextDek

/-- Some keys are resolved for one recipient only. -/
def OnlyOf (recipient : JSString) (keys : Set JSString) (directory : RecipientDirectory) : Prop :=
  ∀ spec, ∀ target ∈ directory.targetsOf spec, target.keyFingerprint ∈ keys →
    target.stableId = recipient

/-- A block that some of the keys open. -/
def OpenedBy (keys : Set JSString) (block : EntryRecipients) : Prop :=
  ∃ key ∈ keys, block.IsWrappedFor key

/-! ## The condition -/

/-- The session unpacks a block of several generations. -/
def SealedState.UnpacksSeveral (state : SealedState S) (op : SealedOp S) : Prop :=
  ∃ newest ∈ newestBlock state.entries, ¬ Skips (state.cachedBefore op) newest
    ∧ 1 < newest.generations.length

instance (state : SealedState S) (op : SealedOp S) : Decidable (state.UnpacksSeveral op) :=
  decidable_of_iff ((newestBlock state.entries).any fun newest =>
    decide (¬ Skips (state.cachedBefore op) newest ∧ 1 < newest.generations.length)) (by
      rw [UnpacksSeveral]
      cases newestBlock state.entries <;> simp)

/-- The ids of the named recipients are without a suffix, and who is listed is resolved under the
id of the entry. -/
structure NamesOne (change : RecipientChange) (map : EncryptFor) : Prop where
  named : ∀ spec ∈ change.namedSpecs, ∀ target ∈ change.directory.targetsOf spec,
    baseId target.stableId = target.stableId
  listed : ∀ entry ∈ activeEncryptForEntries map,
    ∀ target ∈ change.directory.targetsOf (existingSpec entry.1 entry.2),
      target.stableId = baseId entry.1

/-- **A session that unpacks several generations generates the next one**, and names are clear. -/
structure InOrder (state : SealedState S) (op : SealedOp S) : Prop where
  rotates : state.UnpacksSeveral op → state.Rotates op
  names : ∀ change, op.action = .mutateRecipients change → NamesOne change state.encryptFor

/-! ## The first key -/

/-- **The first key of the newest epoch** is that of its blocks and of its sessions, and no bundle
before packs it. -/
structure Heads (failed : S → Prop) (state : SealedState S) (generations : List DocKey) :
    Prop where
  newest : ∀ block ∈ blocksOf state.entries, block.epoch = generations.length →
    block.generations.head? = generations.head?
  before : ∀ block ∈ blocksOf state.entries, block.epoch < generations.length →
    ∀ key ∈ generations.head?, key ∉ block.generations
  caches : ∀ session, ¬ failed session → ∀ cached,
    (state.sessions session).sealedGenerations = some cached →
      cached.length = generations.length → cached.head? = generations.head?

namespace Heads

variable {failed : S → Prop} {state : SealedState S} {generations : List DocKey}

/-- A session that acts has the first key of the newest epoch first, or generates the next one. -/
theorem opened (hheads : Heads failed state generations) (h : Holds failed state generations)
    {op : SealedOp S} (hlegitimate : Legitimate state op) (horder : InOrder state op)
    (hreopens : failed op.session → op.opening = .fresh) :
    ∃ cached, (state.opened op).sealedGenerations = some cached ∧ cached.Perm generations
      ∧ (cached.head? = generations.head? ∨ state.Rotates op) := by
  obtain ⟨newest, hnewest, hmem, hepoch, cached, hcached, hperm, horigin⟩ :=
    h.opened hlegitimate.recipient hreopens
  refine ⟨cached, hcached, hperm, ?_⟩
  rcases horigin with ⟨hfailed, hkept⟩ | ⟨hunpacked, hskips⟩
  · exact Or.inl (hheads.caches _ hfailed _ hkept hperm.length_eq)
  · by_cases hseveral : 1 < newest.generations.length
    · exact Or.inr (horder.rotates ⟨newest, hnewest, hskips, hseveral⟩)
    · have hsame : newest.generations.reverse = newest.generations := by
        cases hgenerations : newest.generations with
        | nil => rfl
        | cons _ rest =>
          cases rest with
          | nil => rfl
          | cons =>
            rw [hgenerations] at hseveral
            exact absurd (Nat.succ_lt_succ (Nat.succ_pos _)) hseveral
      rw [hunpacked, hsame]
      exact Or.inl (hheads.newest newest hmem hepoch)

variable [DecidableEq S]

/-- An entry is written, that fits the first key. -/
theorem appended (hheads : Heads failed state generations) (h : Holds failed state generations)
    {generations' : List DocKey} {session : S} {entry : SealedEntry} {cached : List DocKey}
    {block? : Option EntryRecipients} {outdated : Bool} {encryptFor : EncryptFor}
    (hgrows : generations' = generations ∨ generations.length < generations'.length
      ∧ ∀ block ∈ blocksOf state.entries, ∀ key ∈ generations'.head?, key ∉ block.generations)
    (hentry : ∀ block, entry.recipients = some block → block ∈ blocksOf state.entries
      ∨ block.epoch = generations'.length ∧ block.generations.head? = generations'.head?)
    (hcached : cached.head? = generations'.head?) :
    Heads (Function.update failed session False)
      { entries := state.entries ++ [entry]
        encryptFor
        sessions := Function.update state.sessions session
          ⟨some cached, block?, state.entries.length + 1, outdated⟩ } generations' := by
  have hold : ∀ block ∈ blocksOf state.entries,
      (block.epoch = generations'.length → block.generations.head? = generations'.head?)
        ∧ (block.epoch < generations'.length → ∀ key ∈ generations'.head?,
          key ∉ block.generations) := by
    intro block hblock
    rcases hgrows with rfl | ⟨hlt, hfresh⟩
    · exact ⟨hheads.newest block hblock, hheads.before block hblock⟩
    · have hle := (h.blocks block hblock).epoch_le
      exact ⟨fun heq => by omega, fun _ => hfresh block hblock⟩
  have hblocks : ∀ block ∈ blocksOf (state.entries ++ [entry]),
      (block.epoch = generations'.length → block.generations.head? = generations'.head?)
        ∧ (block.epoch < generations'.length → ∀ key ∈ generations'.head?,
          key ∉ block.generations) := by
    intro block hblock
    rw [blocksOf_append] at hblock
    rcases mem_append.mp hblock with hmem | hmem
    · exact hold block hmem
    · obtain ⟨other, hother, hrecipients⟩ := mem_blocksOf.mp hmem
      rw [mem_singleton.mp hother] at hrecipients
      rcases hentry block hrecipients with hmem | ⟨hepoch, hhead⟩
      · exact hold block hmem
      · exact ⟨fun _ => hhead, fun hlt => absurd hepoch hlt.ne⟩
  refine ⟨fun block hblock => (hblocks block hblock).1, fun block hblock => (hblocks block hblock).2,
    ?_⟩
  intro other
  dsimp only
  by_cases hother : other = session
  · subst hother
    rw [Function.update_self, Function.update_self]
    rintro - _ ⟨⟩ -
    exact hcached
  · rw [Function.update_of_ne hother, Function.update_of_ne hother]
    intro hfailed other' hother' hlength
    rcases hgrows with rfl | ⟨hlt, -⟩
    · exact hheads.caches other hfailed other' hother' hlength
    · have hle := (h.caches other hfailed other' hother').length_le
      omega

/-- **An operation keeps the first key**, or puts a new one before it. -/
theorem step (hheads : Heads failed state generations) (h : Holds failed state generations)
    {op : SealedOp S} (hlegitimate : Legitimate state op) {cached : List DocKey}
    (hcached : (state.opened op).sealedGenerations = some cached)
    (hperm : cached.Perm generations)
    (hhead : cached.head? = generations.head? ∨ state.Rotates op)
    {state' : SealedState S} {generations' : List DocKey}
    (houtcome : Outcome state op generations cached state' generations') :
    Heads (failedAfter failed state op) state' generations' := by
  rw [failedAfter]
  cases houtcome with
  | kept session hkept hblock hseen hstores =>
    refine ⟨hheads.newest, hheads.before, ?_⟩
    intro other
    dsimp only
    by_cases hother : other = op.session
    · subst hother
      rw [Function.update_self, Function.update_self]
      intro hfails other' hother' hlength
      rw [hkept.resolve_right hfails] at hother'
      obtain rfl := Option.some.inj hother'
      exact hhead.resolve_right fun hrot => hfails (rotationFails_of_not_stores hstores hrot)
    · rw [Function.update_of_ne hother, Function.update_of_ne hother]
      exact hheads.caches other
  | written key rest recipients changes outdated hcons haction hstored hblock =>
    have hrotates : ¬ state.Rotates op := not_rotates haction
    have hfails : state.RotationFails op = False := eq_false fun hfails => hrotates hfails.1
    rw [hfails]
    refine hheads.appended h (Or.inl rfl) ?_ (hcons ▸ hhead.resolve_right hrotates)
    intro block hmem
    exact Or.inl (h.opened_sealedRecipients (hblock block hmem)).1
  | changed change plan key rest haction hplan hcons hstored =>
    have hfails : state.RotationFails op = False :=
      eq_false fun hfails => nomatch hstored.symm.trans hfails.2
    rw [hfails]
    rcases h.planned hcached hperm hplan with
      ⟨hremoved, hgenerations, hepoch⟩ | ⟨hremoved, hgenerations, hepoch⟩
    · rw [if_pos hremoved]
      have hrotates : ¬ state.Rotates op :=
        (rotates_iff haction hplan).not.mpr (not_not_intro hremoved)
      have hsame := hhead.resolve_right hrotates
      refine hheads.appended h (Or.inl rfl) ?_ (hcons ▸ hgenerations ▸ hsame)
      rintro block ⟨⟩
      exact Or.inr ⟨hepoch, by rw [generations_sealToTargets, hgenerations, hsame]⟩
    · rw [if_neg hremoved]
      have hlength : generations.length + 1 = plan.generations.length := by
        rw [hgenerations, length_cons, hperm.length_eq]
      refine hheads.appended h (Or.inr ⟨by omega, ?_⟩) ?_ (congrArg List.head? hcons.symm)
      · intro block hblock nextDek hnext
        rw [hgenerations] at hnext
        obtain rfl := Option.some.inj hnext
        exact hlegitimate.newKey change haction block hblock
      · rintro block ⟨⟩
        exact Or.inr ⟨hepoch.trans hlength, by rw [generations_sealToTargets]⟩

end Heads

/-! ## What a removed recipient has -/

section Excluded

variable {recipient : JSString} {keys : Set JSString}

/-- **What a removed recipient does not have**: from some entry on, the key of an entry is in no
bundle that the recipient opens; nor is the first key of the newest epoch. -/
structure Excluded (recipient : JSString) (keys : Set JSString) (n : ℕ) (state : SealedState S)
    (generations : List DocKey) : Prop where
  unlisted : ¬ Listed recipient state.encryptFor
  head : ∀ block ∈ blocksOf state.entries, OpenedBy keys block →
    ∀ key ∈ generations.head?, key ∉ block.generations
  entries : ∀ entry ∈ state.entries.drop n, ∀ block ∈ blocksOf state.entries,
    OpenedBy keys block → entry.key ∉ block.generations

section Plan

variable {change : RecipientChange} {map : EncryptFor} {session : SealedSession}
  {plan : RecipientPlan}

section

variable (hplan : change.plan map session = .ok plan)

include hplan

/-- A block whose targets are others is not opened by the keys of the removed recipient. -/
theorem not_openedBy_of_plan (hkeys : OnlyOf recipient keys change.directory)
    (hothers : ∀ target ∈ plan.remaining, target.stableId ≠ recipient) :
    ¬ OpenedBy keys (sealToTargets plan.generations plan.remaining plan.epoch) := by
  rintro ⟨key, hkey, hwrapped⟩
  obtain ⟨target, htarget, rfl⟩ := isWrappedFor_sealToTargets.mp hwrapped
  obtain ⟨resolved, existing, hspec⟩ := plan_spec hplan
  obtain ⟨-, ⟨id, entry, -, hresolves⟩ | ⟨-, spec, -, hresolves⟩⟩ := hspec.mem_remaining htarget
  · exact hothers target htarget (hkeys _ target hresolves hkey)
  · exact hothers target htarget (hkeys _ target hresolves hkey)

/-- Who is removed does not remain. -/
theorem ne_of_mem_removed (hremoved : recipient ∈ plan.removedStableIds) :
    ∀ target ∈ plan.remaining, target.stableId ≠ recipient := by
  rintro target htarget rfl
  obtain ⟨resolved, existing, hspec⟩ := plan_spec hplan
  exact (hspec.mem_remaining htarget).1 hremoved

/-- Who is not listed does not come back unless named. -/
theorem ne_of_not_listed (hnames : NamesOne change map) (hunlisted : ¬ Listed recipient map)
    (hadded : ∀ target ∈ plan.addedTargets, target.stableId ≠ recipient) :
    ∀ target ∈ plan.remaining, target.stableId ≠ recipient := by
  rintro target htarget rfl
  obtain ⟨resolved, existing, hspec⟩ := plan_spec hplan
  obtain ⟨-, ⟨id, entry, hactive, hresolves⟩ | ⟨hmem, -⟩⟩ := hspec.mem_remaining htarget
  · exact hunlisted ⟨(id, entry), hactive, (hnames.listed (id, entry) hactive target hresolves).symm⟩
  · exact hadded target hmem rfl

end

end Plan

/-- The names that a change adds are not those of a recipient. -/
def NotAdded (recipient : JSString) (op : SealedOp S) : Prop :=
  ∀ change, op.action = .mutateRecipients change → change.mode ≠ .remove →
    ∀ spec ∈ change.namedSpecs, ∀ target ∈ change.directory.targetsOf spec,
      target.stableId ≠ recipient

theorem NotAdded.addedTargets {op : SealedOp S} (h : NotAdded recipient op)
    {change : RecipientChange} (haction : op.action = .mutateRecipients change) {map : EncryptFor}
    {session : SealedSession} {plan : RecipientPlan} (hplan : change.plan map session = .ok plan) :
    ∀ target ∈ plan.addedTargets, target.stableId ≠ recipient := by
  intro target htarget
  obtain ⟨resolved, existing, hspec⟩ := plan_spec hplan
  obtain ⟨skipped, hresolve⟩ := hspec.resolve
  obtain ⟨hmode, hmem, -⟩ := mem_addedTargets (hspec.added ▸ htarget)
  obtain ⟨spec, hspec', hmem'⟩ := mem_resolved hresolve hmem
  exact h change haction hmode spec hspec' target hmem'

namespace Excluded

variable {failed : S → Prop} {state : SealedState S} {generations : List DocKey} {n : ℕ}

/-- An entry is written under the first key, which the removed recipient does not have. -/
theorem appended {entry : SealedEntry} {encryptFor : EncryptFor} {sessions : S → SealedSession}
    (hunlisted : ¬ Listed recipient encryptFor)
    (hhead : ∀ block ∈ blocksOf state.entries, OpenedBy keys block →
      ∀ key ∈ generations.head?, key ∉ block.generations)
    (hentries : ∀ entry ∈ state.entries.drop n, ∀ block ∈ blocksOf state.entries,
      OpenedBy keys block → entry.key ∉ block.generations)
    (hkey : generations.head? = some entry.key)
    (hentry : ∀ block, entry.recipients = some block →
      block ∈ blocksOf state.entries ∨ ¬ OpenedBy keys block) :
    Excluded recipient keys n { entries := state.entries ++ [entry], encryptFor, sessions }
      generations := by
  have hblocks : ∀ block ∈ blocksOf (state.entries ++ [entry]), OpenedBy keys block →
      block ∈ blocksOf state.entries := by
    intro block hblock hopened
    rw [blocksOf_append] at hblock
    rcases mem_append.mp hblock with hmem | hmem
    · exact hmem
    · obtain ⟨other, hother, hrecipients⟩ := mem_blocksOf.mp hmem
      rw [mem_singleton.mp hother] at hrecipients
      exact (hentry block hrecipients).resolve_right (not_not_intro hopened)
  refine ⟨hunlisted, fun block hblock hopened => hhead block (hblocks block hblock hopened) hopened,
    fun other hother block hblock hopened => ?_⟩
  have hold := hblocks block hblock hopened
  rw [drop_append] at hother
  rcases mem_append.mp hother with hmem | hmem
  · exact hentries other hmem block hold hopened
  · rw [mem_singleton.mp (mem_of_mem_drop hmem)]
    exact hhead block hold hopened _ hkey

variable [DecidableEq S] {op : SealedOp S} {cached : List DocKey} {state' : SealedState S}
  {generations' : List DocKey}

/-- **A removal**: the removed recipient does not have the key of its entry. -/
theorem of_removal (h : Holds failed state generations) (hlegitimate : Legitimate state op)
    (hkeys : ∀ change, op.action = .mutateRecipients change →
      OnlyOf recipient keys change.directory)
    (hcached : (state.opened op).sealedGenerations = some cached)
    (hperm : cached.Perm generations) (houtcome : Outcome state op generations cached state'
      generations')
    (hlisted : Listed recipient state.encryptFor) (hunlisted : ¬ Listed recipient state'.encryptFor) :
    Excluded recipient keys state.entries.length state' generations' := by
  cases houtcome with
  | kept | written => exact absurd hlisted hunlisted
  | changed change plan key rest haction hplan hcons hstored =>
    obtain ⟨resolved, existing, hspec⟩ := plan_spec hplan
    have hmem := mem_removed_of_not_listed_apply hspec.removed hlisted hunlisted
    have hothers := ne_of_mem_removed hplan hmem
    have hnot := not_openedBy_of_plan hplan (hkeys change haction) hothers
    obtain ⟨hremoved, hgenerations, -⟩ :=
      (h.planned hcached hperm hplan).resolve_left fun hnone => by
        rw [hnone.1] at hmem
        exact nomatch hmem
    rw [if_neg hremoved]
    refine appended hunlisted (fun block hblock _ nextDek hnext => ?_) ?_ (by rw [hcons]; rfl) ?_
    · rw [hgenerations] at hnext
      obtain rfl := Option.some.inj hnext
      exact hlegitimate.newKey change haction block hblock
    · rw [drop_length]
      exact fun entry hentry => nomatch hentry
    · rintro block ⟨⟩
      exact Or.inr hnot

/-- **An operation that does not name the removed recipient** keeps what the recipient does not
have. -/
theorem step (hexcluded : Excluded recipient keys n state generations)
    (h : Holds failed state generations) (hlegitimate : Legitimate state op)
    (horder : InOrder state op) (hkeys : ∀ change, op.action = .mutateRecipients change →
      OnlyOf recipient keys change.directory)
    (hadded : NotAdded recipient op)
    (hcached : (state.opened op).sealedGenerations = some cached)
    (hperm : cached.Perm generations)
    (hhead : cached.head? = generations.head? ∨ state.Rotates op)
    (houtcome : Outcome state op generations cached state' generations') :
    Excluded recipient keys n state' generations' := by
  cases houtcome with
  | kept => exact ⟨hexcluded.unlisted, hexcluded.head, hexcluded.entries⟩
  | written key rest recipients changes outdated hcons haction hstored hblock =>
    have hsame := hhead.resolve_right (not_rotates haction)
    refine appended hexcluded.unlisted hexcluded.head hexcluded.entries ?_ ?_
    · rw [← hsame, hcons]
      rfl
    · intro block hmem
      exact Or.inl (h.opened_sealedRecipients (hblock block hmem)).1
  | changed change plan key rest haction hplan hcons hstored =>
    have htargets := hadded.addedTargets haction hplan
    have hothers := ne_of_not_listed hplan (horder.names change haction) hexcluded.unlisted htargets
    have hnot := not_openedBy_of_plan hplan (hkeys change haction) hothers
    have hunlisted : ¬ Listed recipient
        (plan.apply op.write.now change.signer state.encryptFor) := by
      intro hlisted
      rcases listed_of_listed_apply hlisted with hold | ⟨target, htarget, hbase⟩
      · exact hexcluded.unlisted hold
      · obtain ⟨resolved, existing, hspec⟩ := plan_spec hplan
        obtain ⟨skipped, hresolve⟩ := hspec.resolve
        obtain ⟨spec, hspec', hmem⟩ := mem_resolved hresolve
          (mem_addedTargets (hspec.added ▸ htarget)).2.1
        rw [(horder.names change haction).named spec hspec' target hmem] at hbase
        exact htargets target htarget hbase
    rcases h.planned hcached hperm hplan with
      ⟨hremoved, hgenerations, -⟩ | ⟨hremoved, hgenerations, -⟩
    · rw [if_pos hremoved]
      have hrotates : ¬ state.Rotates op :=
        (rotates_iff haction hplan).not.mpr (not_not_intro hremoved)
      refine appended hunlisted hexcluded.head hexcluded.entries ?_ ?_
      · rw [← hhead.resolve_right hrotates, ← hgenerations, hcons]
        rfl
      · rintro block ⟨⟩
        exact Or.inr hnot
    · rw [if_neg hremoved]
      refine appended hunlisted (fun block hblock _ nextDek hnext => ?_) hexcluded.entries
        (by rw [hcons]; rfl) ?_
      · rw [hgenerations] at hnext
        obtain rfl := Option.some.inj hnext
        exact hlegitimate.newKey change haction block hblock
      · rintro block ⟨⟩
        exact Or.inr hnot

end Excluded

end Excluded

/-! ## Runs -/

section Run

variable [DecidableEq S] {failed : S → Prop} {state : SealedState S} {generations : List DocKey}
  {recipient : JSString} {keys : Set JSString} {n : ℕ}

/-- What is asked of every step: devices of current recipients, new keys, and the condition. -/
def Allowed (state : SealedState S) (op : SealedOp S) : Prop :=
  Legitimate state op ∧ InOrder state op

theorem Heads.run (hheads : Heads failed state generations) (h : Holds failed state generations)
    {ops later : List (SealedOp S)} (hrun : Run Allowed failed state (ops ++ later)) :
    ∃ failed' generations', Holds failed' (state.run ops) generations'
      ∧ Heads failed' (state.run ops) generations' ∧ Run Allowed failed' (state.run ops) later := by
  induction ops generalizing failed state generations with
  | nil => exact ⟨failed, generations, h, hheads, hrun⟩
  | cons op ops ih =>
    obtain ⟨⟨hlegitimate, horder⟩, hreopens, hrest⟩ := hrun
    obtain ⟨cached, hcached, hperm, hhead⟩ := hheads.opened h hlegitimate horder hreopens
    obtain ⟨generations', houtcome⟩ := h.outcome hcached hperm
    exact ih (hheads.step h hlegitimate hcached hperm hhead houtcome)
      (h.step hcached hperm houtcome).2 hrest

theorem Excluded.run (hexcluded : Excluded recipient keys n state generations)
    (hheads : Heads failed state generations) (h : Holds failed state generations)
    {ops : List (SealedOp S)} (hrun : Run Allowed failed state ops)
    (hkeys : ∀ op ∈ ops, ∀ change, op.action = .mutateRecipients change →
      OnlyOf recipient keys change.directory)
    (hadded : ∀ op ∈ ops, NotAdded recipient op) :
    ∃ generations', Excluded recipient keys n (state.run ops) generations' := by
  induction ops generalizing failed state generations with
  | nil => exact ⟨generations, hexcluded⟩
  | cons op ops ih =>
    obtain ⟨⟨hlegitimate, horder⟩, hreopens, hrest⟩ := hrun
    obtain ⟨cached, hcached, hperm, hhead⟩ := hheads.opened h hlegitimate horder hreopens
    obtain ⟨generations', houtcome⟩ := h.outcome hcached hperm
    obtain ⟨hkeysOp, hkeysOps⟩ := forall_mem_cons.mp hkeys
    obtain ⟨haddedOp, haddedOps⟩ := forall_mem_cons.mp hadded
    exact ih
      (hexcluded.step h hlegitimate horder hkeysOp haddedOp hcached hperm hhead houtcome)
      (hheads.step h hlegitimate hcached hperm hhead houtcome)
      (h.step hcached hperm houtcome).2 hrest hkeysOps haddedOps

theorem heads_create {session : S} {directory : RecipientDirectory} {specs : List RecipientSpec}
    {options : RecipientOptions} {dek : DocKey} {now : Timestamp} {signer : JSString}
    (h : create session directory specs options dek now signer = .ok state) :
    Heads (fun _ => False) state [dek] := by
  obtain ⟨block, -, hepoch, hgenerations, hentries, hsessions⟩ := create_spec h
  have hmem : ∀ other ∈ blocksOf state.entries, other = block := by
    rw [hentries]
    exact fun other hother => mem_singleton.mp hother
  refine ⟨fun other hother _ => ?_, fun other hother hlt => ?_, fun other _ cached hcached _ => ?_⟩
  · rw [hmem other hother, hgenerations]
  · rw [hmem other hother, hepoch] at hlt
    exact absurd hlt (lt_irrefl 1)
  · rw [hsessions] at hcached
    by_cases hother : other = session
    · rw [hother, Function.update_self] at hcached
      obtain rfl := Option.some.inj hcached
      rfl
    · rw [Function.update_of_ne hother] at hcached
      exact nomatch hcached

end Run

/-! ## Later writes -/

/-- **A removed recipient cannot read what is written later**, as long as whoever unpacks several
generations generates the next one; and a bundle is unpacked in its order just when the order does
not matter. -/
theorem removedRecipients_cannotRead [DecidableEq S] {session : S}
    {directory : RecipientDirectory} {specs : List RecipientSpec} {options : RecipientOptions}
    {dek : DocKey} {now : Timestamp} {signer : JSString} {created : SealedState S}
    (hcreated : create session directory specs options dek now signer = .ok created)
    {ops later : List (SealedOp S)} {op : SealedOp S}
    (hrun : Run Allowed (fun _ => False) created (ops ++ op :: later))
    {recipient : JSString} {keys : Set JSString}
    (hkeys : ∀ op' ∈ op :: later, ∀ change, op'.action = .mutateRecipients change →
      OnlyOf recipient keys change.directory)
    (hlisted : Listed recipient (created.run ops).encryptFor)
    (hremoved : ¬ Listed recipient ((created.run ops).step op).encryptFor)
    (hadded : ∀ op' ∈ later, NotAdded recipient op') :
    (∀ entry ∈ (created.run (ops ++ op :: later)).entries.drop (created.run ops).entries.length,
      ∀ block ∈ blocksOf (created.run (ops ++ op :: later)).entries,
        OpenedBy keys block → entry.key ∉ block.generations)
    ∧ ∀ generations targets epoch privateKey,
      (∃ target ∈ targets, target.keyFingerprint = privateKey) →
        (openBundle (sealToTargets generations targets epoch) privateKey = some generations
          ↔ generations.reverse = generations) := by
  refine ⟨?_, fun generations targets epoch privateKey htarget => ?_⟩
  · obtain ⟨failed, generations, h, hheads, ⟨hlegitimate, horder⟩, hreopens, hlater⟩ :=
      (heads_create hcreated).run (holds_create hcreated) hrun
    obtain ⟨cached, hcached, hperm, hhead⟩ := hheads.opened h hlegitimate horder hreopens
    obtain ⟨generations', houtcome⟩ := h.outcome hcached hperm
    obtain ⟨hkeysOp, hkeysLater⟩ := forall_mem_cons.mp hkeys
    have hexcluded := Excluded.of_removal h hlegitimate hkeysOp hcached hperm houtcome hlisted
      hremoved
    obtain ⟨generations'', hlast⟩ := hexcluded.run
      (hheads.step h hlegitimate hcached hperm hhead houtcome) (h.step hcached hperm houtcome).2
      hlater hkeysLater hadded
    have hstates : created.run (ops ++ op :: later)
        = ((created.run ops).step op).run later := foldl_append
    rw [hstates]
    exact hlast.entries
  · rw [openBundle_sealToTargets htarget, Option.some.injEq]

/-! ### A carrier of the old key -/

/-- The creator removes `b`. -/
def removeB : SealedOp ℕ where
  session := 0
  opening := .cached
  write := { keys := ["CN=a/O=x"], now := ⟨2, by decide⟩, stored := true }
  action := .mutateRecipients {
    mode := .remove
    specs := [.user "b/x"]
    options := {}
    directory := everybody
    nextDek := docKey 2
    signer := "a" }

def sampleTime : Timestamp := ⟨3, by decide⟩

/-- A person changes the document in a session of their own. -/
def changeBy (session : ℕ) (opening : SealedOpening) (key : JSString) : SealedOp ℕ where
  session
  opening
  write := { keys := [key], now := sampleTime, stored := true }
  action := .changeDoc

/-- The document that `a` creates for `b` and `c`. -/
def createSharedDocument : Except JSString (SealedState ℕ) :=
  create 0 everybody [.user "b/x", .user "c/x"] {} (docKey 1) ⟨1, by decide⟩ "a"

def sharedDocument : SealedState ℕ := createSharedDocument.toOption.getD ⟨[], ∅, fun _ => {}⟩

theorem create_sharedDocument : createSharedDocument = .ok sharedDocument := by
  have hok : createSharedDocument.toOption.isSome = true := by decide +kernel
  rw [sharedDocument]
  cases h : createSharedDocument with
  | error message =>
    rw [h] at hok
    exact nomatch hok
  | ok document => rfl

/-- Everybody has a key of their own. -/
theorem onlyOf_everybody (recipient : JSString) : OnlyOf recipient {recipient} everybody := by
  intro spec target htarget hkey
  rw [Set.mem_singleton_iff] at hkey
  rw [RecipientDirectory.targetsOf] at htarget
  cases spec with
  | user username =>
    rw [RecipientDirectory.resolveOneSpec, RecipientDirectory.resolveUserTarget] at htarget
    cases hcanonical : everybody.unicode.canonicalizeUsername username with
    | error message =>
      rw [hcanonical] at htarget
      cases htarget
    | ok canonical =>
      rw [hcanonical] at htarget
      cases hlabel : everybody.unicode.formatCanonicalUsernameLabel username with
      | error message =>
        rw [hlabel] at htarget
        cases htarget
      | ok label =>
        rw [hlabel] at htarget
        rw [mem_singleton.mp htarget] at hkey ⊢
        exact hkey
  | device fingerprint label => cases htarget
  | devicePem pem label => cases htarget

/-- The creator goes on after removing somebody. -/
theorem removedRecipients_cannotRead_creator :
    (sharedDocument.run []).entries.length
        < (sharedDocument.run [removeB, changeBy 0 .cached "CN=a/O=x"]).entries.length
      ∧ ∀ entry ∈ (sharedDocument.run [removeB, changeBy 0 .cached "CN=a/O=x"]).entries.drop
        (sharedDocument.run []).entries.length,
      ∀ block ∈ blocksOf (sharedDocument.run [removeB, changeBy 0 .cached "CN=a/O=x"]).entries,
        OpenedBy {JSString.ofString "CN=b/O=x"} block → entry.key ∉ block.generations := by
  refine ⟨by decide +kernel, ?_⟩
  have hrun : Run Allowed (fun _ => False) sharedDocument
      ([] ++ removeB :: [changeBy 0 .cached "CN=a/O=x"]) := by
    refine ⟨⟨⟨by decide +kernel, ?_⟩, ⟨?_, ?_⟩⟩, nofun, ⟨⟨by decide +kernel, nofun⟩, ⟨?_, nofun⟩⟩, ?_,
      trivial⟩
    · rintro _ ⟨⟩
      rw [IsNewKey]
      decide +kernel
    · intro h
      exact absurd h (by decide +kernel)
    · rintro _ ⟨⟩
      exact ⟨by decide +kernel, by decide +kernel⟩
    · intro h
      exact absurd h (by decide +kernel)
    · intro hfailed
      change failedAfter _ sharedDocument removeB removeB.session at hfailed
      rw [failedAfter, Function.update_self] at hfailed
      exact nomatch hfailed.2
  have hdirectory : ∀ op' ∈ removeB :: [changeBy 0 .cached "CN=a/O=x"], ∀ change,
      op'.action = .mutateRecipients change →
        OnlyOf "CN=b/O=x" {JSString.ofString "CN=b/O=x"} change.directory := by
    intro op' hop' change haction
    rcases mem_pair.mp hop' with rfl | rfl
    · obtain rfl := SealedAction.mutateRecipients.inj haction
      exact onlyOf_everybody _
    · exact nomatch haction
  refine (removedRecipients_cannotRead create_sharedDocument hrun hdirectory (by decide +kernel)
    (by decide +kernel) ?_).1
  · rintro op' hop' change haction
    rw [mem_singleton.mp hop'] at haction
    exact nomatch haction

/-- **A removed recipient has the key of a later entry**: `c` unpacks the two keys the other way
round. -/
theorem not_removedRecipients_cannotRead :
    ¬ ∀ (session : ℕ) (directory : RecipientDirectory) (specs : List RecipientSpec)
        (options : RecipientOptions) (dek : DocKey) (now : Timestamp) (signer : JSString)
        (created : SealedState ℕ),
      create session directory specs options dek now signer = .ok created →
      ∀ (ops later : List (SealedOp ℕ)) (op : SealedOp ℕ),
        Run Legitimate (fun _ => False) created (ops ++ op :: later) →
        ∀ (recipient : JSString) (keys : Set JSString),
          (∀ op' ∈ op :: later, ∀ change, op'.action = .mutateRecipients change →
            OnlyOf recipient keys change.directory) →
          Listed recipient (created.run ops).encryptFor →
          ¬ Listed recipient ((created.run ops).step op).encryptFor →
          (∀ op' ∈ later, NotAdded recipient op') →
          ∀ entry ∈ (created.run (ops ++ op :: later)).entries.drop
              (created.run ops).entries.length,
            ∀ block ∈ blocksOf (created.run (ops ++ op :: later)).entries,
              OpenedBy keys block → entry.key ∉ block.generations := by
  intro h
  have hrun : Run Legitimate (fun _ => False) sharedDocument
      ([] ++ removeB :: [changeBy 1 .fresh "CN=c/O=x"]) := by
    refine ⟨⟨by decide +kernel, ?_⟩, nofun, ⟨by decide +kernel, nofun⟩, fun _ => rfl, trivial⟩
    rintro _ ⟨⟩
    rw [IsNewKey]
    decide +kernel
  have hdirectory : ∀ op' ∈ removeB :: [changeBy 1 .fresh "CN=c/O=x"], ∀ change,
      op'.action = .mutateRecipients change →
        OnlyOf "CN=b/O=x" {JSString.ofString "CN=b/O=x"} change.directory := by
    intro op' hop' change haction
    rcases mem_pair.mp hop' with rfl | rfl
    · obtain rfl := SealedAction.mutateRecipients.inj haction
      exact onlyOf_everybody _
    · exact nomatch haction
  have hlater : ∀ op' ∈ [changeBy 1 .fresh "CN=c/O=x"], NotAdded "CN=b/O=x" op' := by
    rintro op' hop' change haction
    rw [mem_singleton.mp hop'] at haction
    exact nomatch haction
  have hdenied := h 0 everybody _ _ _ _ _ _ create_sharedDocument [] _ removeB hrun _ _ hdirectory
    (by decide +kernel) (by decide +kernel) hlater
  have hread : ∃ entry ∈ (sharedDocument.run [removeB, changeBy 1 .fresh "CN=c/O=x"]).entries.drop 1,
      ∃ block ∈ blocksOf (sharedDocument.run [removeB, changeBy 1 .fresh "CN=c/O=x"]).entries,
        block.IsWrappedFor "CN=b/O=x" ∧ entry.key ∈ block.generations := by decide +kernel
  obtain ⟨entry, hentry, block, hblock, hwrapped, hmem⟩ := hread
  exact hdenied entry hentry block hblock ⟨_, rfl, hwrapped⟩ hmem

end MindooDB.Sealed
