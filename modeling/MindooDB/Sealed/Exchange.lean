import MindooDB.Sealed.Listing

/-!
# Sealed/Exchange — recipients that are changed on several replicas

Each replica that removes somebody puts a key of its own before the keys, under the same number of
the epoch.  Of the merged history one block is the newest, and it packs the keys of its own replica
and is wrapped for the recipients of its own replica (`not_exchange_converges`).  Where no other
replica removes somebody, and whoever another one adds is listed there too, every listed recipient
reads every entry (`exchange_converges`).
-/

namespace MindooDB.Sealed

open List Option SealedState

variable {S : Type}

/-! ## Runs with the sessions that failed -/

variable {generations' : List DocKey} {op : SealedOp S} {ops : List (SealedOp S)}

variable {cached : List DocKey} {state' : SealedState S}

section

variable [DecidableEq S] {allowed : SealedState S → SealedOp S → Prop} {failed : S → Prop}
  {state : SealedState S} {generations : List DocKey}

/-- The sessions that generated a key and failed to store it, after a run. -/
def failedSince : (S → Prop) → SealedState S → List (SealedOp S) → S → Prop
  | failed, _, [] => failed
  | failed, state, op :: ops => failedSince (failedAfter failed state op) (state.step op) ops

theorem run_append {later : List (SealedOp S)} : Run allowed failed state (ops ++ later) ↔
    Run allowed failed state ops
      ∧ Run allowed (failedSince failed state ops) (state.run ops) later := by
  induction ops generalizing failed state with
  | nil => exact (and_iff_right trivial).symm
  | cons op ops ih =>
    rw [cons_append, Run, Run, ih]
    exact ⟨fun ⟨hop, hreopens, hrest, hlater⟩ => ⟨⟨hop, hreopens, hrest⟩, hlater⟩,
      fun ⟨⟨hop, hreopens, hrest⟩, hlater⟩ => ⟨hop, hreopens, hrest, hlater⟩⟩

theorem failedSince_append {later : List (SealedOp S)} :
    failedSince failed state (ops ++ later)
      = failedSince (failedSince failed state ops) (state.run ops) later := by
  induction ops generalizing failed state with
  | nil => rfl
  | cons op ops ih => exact ih

/-- No removal is stored. -/
def KeepsEpoch (state : SealedState S) (op : SealedOp S) : Prop :=
  state.Rotates op → state.persists op = false

/-- Every operation of a run has a property, in the state where it is made. -/
def Along (p : SealedState S → SealedOp S → Prop) : SealedState S → List (SealedOp S) → Prop
  | _, [] => True
  | state, op :: ops => p state op ∧ Along p (state.step op) ops

theorem Outcome.generations_eq (houtcome : Outcome state op generations cached state' generations')
    (hkeeps : KeepsEpoch state op) : generations' = generations := by
  cases houtcome with
  | kept | written => rfl
  | changed change plan key rest haction hplan hcons hstored =>
    refine if_pos (by_contra fun hremoved => ?_)
    have hfalse := hkeeps ((rotates_iff haction hplan).mpr hremoved)
    exact nomatch hstored.symm.trans hfalse

/-- **The keys that a run adds.** -/
theorem Holds.run_spec (hallowed : ∀ state op, allowed state op → state.IsRecipient op)
    (h : Holds failed state generations) (hrun : Run allowed failed state ops) :
    ∃ generations', Holds (failedSince failed state ops) (state.run ops) generations'
      ∧ generations ⊆ generations'
      ∧ (generations' = generations ∨ generations.length < generations'.length)
      ∧ (Along KeepsEpoch state ops → generations' = generations) := by
  induction ops generalizing failed state generations with
  | nil => exact ⟨generations, h, List.Subset.refl _, .inl rfl, fun _ => rfl⟩
  | cons op ops ih =>
    obtain ⟨hop, hreopens, hrest⟩ := hrun
    obtain ⟨-, -, -, -, cached, hcached, hperm, -⟩ := h.opened (hallowed state op hop) hreopens
    obtain ⟨middle, houtcome⟩ := h.outcome hcached hperm
    obtain ⟨hgrows, hmiddle⟩ := h.step hcached hperm houtcome
    obtain ⟨generations', hlast, hsubset, hlength, hsame⟩ := ih hmiddle hrest
    refine ⟨generations', hlast, List.Subset.trans hgrows.subset hsubset, ?_, ?_⟩
    · rcases hgrows with rfl | ⟨key, kept, hkept, rfl⟩
      · exact hlength
      · refine .inr ?_
        rw [length_cons, hkept.length_eq] at hlength
        rcases hlength with rfl | hlt
        · rw [length_cons, hkept.length_eq]
          exact Nat.lt_succ_self _
        · exact (Nat.lt_succ_self _).trans hlt
    · rintro ⟨hkeeps, hothers⟩
      rw [hsame hothers]
      exact houtcome.generations_eq hkeeps

end

/-! ## The newest block of a replica -/

section

variable {unicode : UnicodeTables} {failed : S → Prop} {state : SealedState S}
  {generations : List DocKey} {newest : EntryRecipients}

/-- **The newest block is of those who are listed**, and it is the one that the document in memory
has, unless others have changed it since. -/
structure Recalls (unicode : UnicodeTables) (state : SealedState S) (newest : EntryRecipients) :
    Prop where
  isNewest : newestBlock state.entries = some newest
  lists : Lists unicode state.encryptFor newest
  memory : ∀ session block, (state.sessions session).sealedRecipients = some block →
    (state.sessions session).seen ≤ state.entries.length
      ∧ ((state.entries.drop (state.sessions session).seen).any SealedEntry.changes = true
        ∨ block = newest)

theorem Recalls.opened (h : Recalls unicode state newest)
    {block : EntryRecipients} (hblock : (state.opened op).sealedRecipients = some block) :
    block = newest := by
  simp only [SealedState.opened, openSession] at hblock
  cases hopening : op.opening with
  | fresh | loaded =>
    rw [hopening] at hblock
    exact some.inj (hblock.symm.trans h.isNewest)
  | restored =>
    rw [hopening] at hblock
    cases hblock
  | cached =>
    rw [hopening] at hblock
    dsimp only at hblock
    split_ifs at hblock with hchanged
    exact (h.memory op.session block hblock).2.resolve_left hchanged

variable [DecidableEq S]

/-- A change of the recipients that is stored keeps the list and the wraps together. -/
structure Sound (unicode : UnicodeTables) (state : SealedState S) (op : SealedOp S) : Prop where
  legitimate : Legitimate state op
  keeps : ∀ change, op.action = .mutateRecipients change → state.Stores op →
    Keeps unicode state op

/-- The document in memory after an operation of another session, or of its own. -/
theorem Recalls.remembers (h : Recalls unicode state newest) {entry : SealedEntry}
    {newest' : EntryRecipients} (hentry : entry.changes = true ∨ newest' = newest) {session : S}
    {cached : Option (List DocKey)} {block? : Option EntryRecipients} {outdated : Bool}
    (hblock : ∀ block, block? = some block → block = newest') :
    ∀ other block, (Function.update state.sessions session
        ⟨cached, block?, state.entries.length + 1, outdated⟩ other).sealedRecipients = some block →
      (Function.update state.sessions session
          ⟨cached, block?, state.entries.length + 1, outdated⟩ other).seen
        ≤ (state.entries ++ [entry]).length
      ∧ (((state.entries ++ [entry]).drop (Function.update state.sessions session
            ⟨cached, block?, state.entries.length + 1, outdated⟩ other).seen).any SealedEntry.changes = true
        ∨ block = newest') := by
  intro other block hmem
  by_cases hother : other = session
  · subst hother
    rw [Function.update_self] at hmem ⊢
    exact ⟨by simp, .inr (hblock block hmem)⟩
  · rw [Function.update_of_ne hother] at hmem ⊢
    obtain ⟨hle, hfits⟩ := h.memory other block hmem
    refine ⟨by rw [length_append]; exact Nat.le_add_right_of_le hle, ?_⟩
    rw [drop_append_of_le_length hle, any_append]
    rcases hfits with hchanged | rfl
    · exact .inl (by rw [hchanged, Bool.true_or])
    · rcases hentry with hchanges | rfl
      · exact .inl (by simp [hchanges])
      · exact .inr rfl

/-- **An operation keeps the newest block and the list together.** -/
theorem Recalls.step (h : Recalls unicode state newest) (hsound : Sound unicode state op)
    (houtcome : Outcome state op generations cached state' generations') :
    ∃ newest', Recalls unicode state' newest' := by
  cases houtcome with
  | kept session hkept hblock hseen hstores =>
    refine ⟨newest, h.isNewest, h.lists, fun other block hmem => ?_⟩
    dsimp only at hmem ⊢
    by_cases hother : other = op.session
    · subst hother
      rw [Function.update_self] at hmem ⊢
      exact ⟨hseen.le, .inr (h.opened (hblock ▸ hmem))⟩
    · rw [Function.update_of_ne hother] at hmem ⊢
      exact h.memory other block hmem
  | written key rest recipients changes outdated hcons haction hstored hblock =>
    have hnewest : newestBlock (state.entries ++ [⟨recipients, op.write.now, key, changes⟩])
        = some newest := by
      obtain ⟨hmem, hwraps, -⟩ := newestBlock_spec h.isNewest
      have hmem' : newest ∈ blocksOf
          (state.entries ++ [⟨recipients, op.write.now, key, changes⟩]) := by
        rw [blocksOf_append]
        exact mem_append_left _ hmem
      obtain ⟨newest', hnewest⟩ := exists_newestBlock hmem' hwraps
      rcases newestBlock_concat state.entries ⟨recipients, op.write.now, key, changes⟩ with
        hold | hnew
      · exact hold.trans h.isNewest
      · rw [hnewest] at hnew ⊢
        exact congrArg some (h.opened (hblock newest' hnew.symm))
    refine ⟨newest, hnewest, h.lists, h.remembers (.inr rfl) fun block hmem => ?_⟩
    rcases or_eq_some_iff.mp hmem with hrecipients | ⟨-, hopened⟩
    · exact h.opened (hblock block hrecipients)
    · exact h.opened hopened
  | changed change plan key rest haction hplan hcons hstored =>
    have hstores : state.Stores op := by
      refine ⟨hstored, fun change' haction' => ⟨plan, ?_⟩⟩
      rwa [← SealedAction.mutateRecipients.inj (haction.symm.trans haction')]
    have hkeeps := hsound.keeps change haction hstores
    have hpublished := ((state.publishes_iff haction hplan).mp hkeeps.publishes).2
    refine ⟨sealToTargets plan.generations plan.remaining plan.epoch, ?_, ?_,
      h.remembers (.inl rfl) fun block hmem => ?_⟩
    · rw [newestBlock, map_append]
      exact hpublished
    · exact h.lists.change hplan (hkeeps.resolves change plan haction hplan)
        op.write.now.property.ne' change.signer
    · exact (some.inj hmem).symm

/-- **What a replica has after a run**: its keys, and the newest block of those whom it lists. -/
theorem Recalls.run (h : Holds failed state generations) (hrecalls : Recalls unicode state newest)
    (hrun : Run (Sound unicode) failed state ops) :
    ∃ newest', Recalls unicode (state.run ops) newest' := by
  induction ops generalizing failed state generations newest with
  | nil => exact ⟨newest, hrecalls⟩
  | cons op ops ih =>
    obtain ⟨hsound, hreopens, hrest⟩ := hrun
    obtain ⟨-, -, -, -, cached, hcached, hperm, -⟩ :=
      h.opened hsound.legitimate.recipient hreopens
    obtain ⟨generations', houtcome⟩ := h.outcome hcached hperm
    obtain ⟨newest', hrecalls'⟩ := hrecalls.step hsound houtcome
    exact ih (h.step hcached hperm houtcome).2 hrecalls' hrest

end

/-! ## The list of another replica -/

theorem isSome_get?_addEncryptForEntry {map : EncryptFor} {added : JSString × EncryptForEntry}
    {epoch : ℕ} {id : JSString} (h : (map.get? id).isSome = true) :
    ((addEncryptForEntry epoch map added).get? id).isSome = true := by
  have hset : ∀ other, ((map.set other added.2).get? id).isSome = true := by
    intro other
    rw [LinkedMap.get?_set]
    split_ifs
    · rfl
    · exact h
  rw [addEncryptForEntry]
  split
  · exact hset _
  · split_ifs
    · exact h
    · exact hset _

/-- **No entry is ever taken off the list.** -/
theorem RecipientPlan.isSome_get?_apply {plan : RecipientPlan} {now : ℤ} {signer : JSString}
    {map : EncryptFor} {id : JSString} (h : (map.get? id).isSome = true) :
    ((plan.apply now signer map).get? id).isSome = true := by
  rw [RecipientPlan.apply, get?_applyEncryptForRemoves, isSome_map, applyEncryptForAdds]
  exact List.foldlRecOn (motive := fun (map : EncryptFor) => (map.get? id).isSome = true) _ _ h
    fun _ hmem _ _ => isSome_get?_addEncryptForEntry hmem

/-- A plan that removes nobody, and brings nobody back, leaves the entries of the list. -/
theorem RecipientPlan.get?_apply_of_removes_nobody {plan : RecipientPlan}
    (hremoved : plan.removedStableIds = []) {map : EncryptFor}
    (hadded : ∀ target ∈ plan.addedTargets, map.get? target.stableId = none)
    (hdistinct : RecipientDirectory.Distinct plan.addedTargets) {now : ℤ} {signer id : JSString}
    {entry : EncryptForEntry} (h : map.get? id = some entry) :
    (plan.apply now signer map).get? id = some entry := by
  have hadds : (applyEncryptForAdds map
      (plan.addedTargets.map fun target => (target.stableId, target.toEntry now signer))
      plan.epoch).get? id = some entry := by
    rw [← LinkedMap.mem_toList_iff, applyEncryptForAdds_of_absent]
    · exact mem_append_left _ (LinkedMap.mem_toList_iff.mpr h)
    · rw [List.map_map]
      exact hdistinct
    · intro added hmem
      obtain ⟨target, htarget, rfl⟩ := List.mem_map.mp hmem
      exact hadded target htarget
  rw [RecipientPlan.apply, get?_applyEncryptForRemoves, hadds, hremoved]
  rfl

/-- **What is asked of the other replicas**: they remove nobody, and bring nobody back. -/
def Extends (state : SealedState S) (op : SealedOp S) : Prop :=
  ∀ change plan, op.action = .mutateRecipients change →
    change.plan state.encryptFor (state.opened op) = .ok plan → state.persists op = true →
      plan.removedStableIds = []
        ∧ ∀ target ∈ plan.addedTargets, state.encryptFor.get? target.stableId = none

theorem Extends.keepsEpoch {state : SealedState S} (h : Extends state op) : KeepsEpoch state op := by
  rintro ⟨change, plan, haction, hplan, hremoved⟩
  exact Bool.eq_false_iff.mpr fun hstored => hremoved (h change plan haction hplan hstored).1

section

variable [DecidableEq S] {failed : S → Prop} {state : SealedState S} {generations : List DocKey}

theorem Along.imp {p q : SealedState S → SealedOp S → Prop} (hpq : ∀ state op, p state op → q state op)
    (h : Along p state ops) : Along q state ops := by
  induction ops generalizing state with
  | nil => trivial
  | cons op ops ih => exact ⟨hpq state op h.1, ih h.2⟩

/-- The list after an operation: the same, or that of the plan. -/
theorem Outcome.encryptFor (houtcome : Outcome state op generations cached state' generations') :
    state'.encryptFor = state.encryptFor ∨ ∃ change plan, op.action = .mutateRecipients change
      ∧ change.plan state.encryptFor (state.opened op) = .ok plan ∧ state.persists op = true
      ∧ state'.encryptFor = plan.apply op.write.now change.signer state.encryptFor := by
  cases houtcome with
  | kept | written => exact .inl rfl
  | changed change plan key rest haction hplan hcons hstored =>
    exact .inr ⟨change, plan, haction, hplan, hstored, rfl⟩

/-- **The list only grows, on the other replicas.** -/
theorem Holds.get?_run (h : Holds failed state generations)
    (hrun : Run Legitimate failed state ops) (hextends : Along Extends state ops) {id : JSString}
    {entry : EncryptForEntry} (hentry : state.encryptFor.get? id = some entry) :
    (state.run ops).encryptFor.get? id = some entry := by
  induction ops generalizing failed state generations with
  | nil => exact hentry
  | cons op ops ih =>
    obtain ⟨hlegitimate, hreopens, hrest⟩ := hrun
    obtain ⟨hop, hothers⟩ := hextends
    obtain ⟨-, -, -, -, cached, hcached, hperm, -⟩ := h.opened hlegitimate.recipient hreopens
    obtain ⟨generations', houtcome⟩ := h.outcome hcached hperm
    refine ih (h.step hcached hperm houtcome).2 hrest hothers ?_
    rcases houtcome.encryptFor with hsame | ⟨change, plan, haction, hplan, hstored, hlist⟩
    · rw [hsame]
      exact hentry
    · obtain ⟨hremoved, hadded⟩ := hop change plan haction hplan hstored
      obtain ⟨resolved, existing, hspec⟩ := RecipientChange.plan_spec hplan
      rw [hlist]
      exact RecipientPlan.get?_apply_of_removes_nobody hremoved hadded
        (RecipientChange.distinct_addedTargets hspec) hentry

theorem Holds.isSome_get?_run (h : Holds failed state generations)
    {allowed : SealedState S → SealedOp S → Prop}
    (hallowed : ∀ state op, allowed state op → state.IsRecipient op)
    (hrun : Run allowed failed state ops) {id : JSString}
    (hentry : (state.encryptFor.get? id).isSome = true) :
    ((state.run ops).encryptFor.get? id).isSome = true := by
  induction ops generalizing failed state generations with
  | nil => exact hentry
  | cons op ops ih =>
    obtain ⟨hop, hreopens, hrest⟩ := hrun
    obtain ⟨-, -, -, -, cached, hcached, hperm, -⟩ := h.opened (hallowed state op hop) hreopens
    obtain ⟨generations', houtcome⟩ := h.outcome hcached hperm
    refine ih (h.step hcached hperm houtcome).2 hrest ?_
    rcases houtcome.encryptFor with hsame | ⟨change, plan, -, -, -, hlist⟩
    · rw [hsame]
      exact hentry
    · rw [hlist]
      exact RecipientPlan.isSome_get?_apply hentry

end

/-! ## The exchange -/

/-- **A field after the exchange**: what it was, or what some replica has assigned. -/
def MergesField {R α : Type} (base : α) (replicas : R → α) (merged : α) : Prop :=
  merged = base ∧ (∀ r, replicas r = base) ∨ ∃ r, replicas r ≠ base ∧ merged = replicas r

instance {R α : Type} [Fintype R] [DecidableEq α] (base : α) (replicas : R → α) (merged : α) :
    Decidable (MergesField base replicas merged) :=
  inferInstanceAs (Decidable (_ ∨ _))

/-- An entry that was there before, field by field. -/
def MergesEntry {R : Type} (base : EncryptForEntry) (replicas : R → EncryptForEntry)
    (merged : EncryptForEntry) : Prop :=
  MergesField base.kind (fun r => (replicas r).kind) merged.kind
  ∧ MergesField base.label (fun r => (replicas r).label) merged.label
  ∧ MergesField base.addedAt (fun r => (replicas r).addedAt) merged.addedAt
  ∧ MergesField base.addedBy (fun r => (replicas r).addedBy) merged.addedBy
  ∧ MergesField base.keyFingerprint (fun r => (replicas r).keyFingerprint) merged.keyFingerprint
  ∧ MergesField base.removedAt (fun r => (replicas r).removedAt) merged.removedAt
  ∧ MergesField base.removedBy (fun r => (replicas r).removedBy) merged.removedBy

instance {R : Type} [Fintype R] (base : EncryptForEntry) (replicas : R → EncryptForEntry)
    (merged : EncryptForEntry) : Decidable (MergesEntry base replicas merged) :=
  inferInstanceAs (Decidable (_ ∧ _))

/-- **The list after the exchange**: what was there is merged field by field, and of the entries that
several replicas have put under one id one is kept. -/
structure MergesEncryptFor {R : Type} (base : EncryptFor) (replicas : R → EncryptFor)
    (merged : EncryptFor) : Prop where
  complete : ∀ r, ∀ id ∈ (replicas r).keys, id ∈ merged.keys
  kept : ∀ entry ∈ merged.toList, ∀ old ∈ base.get? entry.1,
    MergesEntry old (fun r => ((replicas r).get? entry.1).getD old) entry.2
  added : ∀ entry ∈ merged.toList, base.get? entry.1 = none →
    ∃ r, (replicas r).get? entry.1 = some entry.2

instance {R : Type} [Fintype R] (base : EncryptFor) (replicas : R → EncryptFor)
    (merged : EncryptFor) : Decidable (MergesEncryptFor base replicas merged) :=
  decidable_of_iff ((∀ r, ∀ id ∈ (replicas r).keys, id ∈ merged.keys)
    ∧ (∀ entry ∈ merged.toList, ∀ old ∈ base.get? entry.1,
      MergesEntry old (fun r => ((replicas r).get? entry.1).getD old) entry.2)
    ∧ ∀ entry ∈ merged.toList, base.get? entry.1 = none →
      ∃ r, (replicas r).get? entry.1 = some entry.2)
    ⟨fun ⟨complete, kept, added⟩ => ⟨complete, kept, added⟩,
      fun h => ⟨h.complete, h.kept, h.added⟩⟩

/-- Only one replica has assigned a field. -/
theorem MergesField.eq_of_others {R α : Type} {base : α} {replicas : R → α} {merged : α}
    (h : MergesField base replicas merged) {winner : R}
    (hothers : ∀ r, r ≠ winner → replicas r = base) : merged = replicas winner := by
  rcases h with ⟨hmerged, hall⟩ | ⟨r, hne, hmerged⟩
  · rw [hmerged, hall winner]
  · rw [hmerged, not_imp_comm.mp (hothers r) hne]

/-- **Who is listed after the exchange** is listed on the winning replica, where the others remove
nobody and add nobody else. -/
theorem MergesEncryptFor.listed {R : Type} {base : EncryptFor} {replicas : R → EncryptFor}
    {merged : EncryptFor} (h : MergesEncryptFor base replicas merged) {winner : R}
    (hkeys : ∀ id, (base.get? id).isSome = true → ((replicas winner).get? id).isSome = true)
    (hothers : ∀ r, r ≠ winner → ∀ id entry, base.get? id = some entry →
      (replicas r).get? id = some entry)
    (hlisted : ∀ r, r ≠ winner → ∀ entry ∈ activeEncryptForEntries (replicas r),
      base.get? entry.1 = none → ∃ other, (entry.1, other) ∈ activeEncryptForEntries (replicas winner)
        ∧ other.keyFingerprint = entry.2.keyFingerprint)
    {entry : JSString × EncryptForEntry} (hentry : entry ∈ activeEncryptForEntries merged) :
    ∃ other, (entry.1, other) ∈ activeEncryptForEntries (replicas winner)
      ∧ other.keyFingerprint = entry.2.keyFingerprint := by
  obtain ⟨id, entry⟩ := entry
  obtain ⟨hget, hactive⟩ := mem_activeEncryptForEntries.mp hentry
  have hmem := LinkedMap.mem_toList_iff.mpr hget
  cases hbase : base.get? id with
  | some old =>
    obtain ⟨other, hother⟩ := isSome_iff_exists.mp (hkeys id (by rw [hbase]; rfl))
    obtain ⟨-, -, -, -, hfingerprint, hremovedAt, -⟩ := h.kept (id, entry) hmem old hbase
    have hold : ∀ r, r ≠ winner → ((replicas r).get? id).getD old = old := fun r hr => by
      rw [hothers r hr id old hbase, getD_some]
    have hwinner : ((replicas winner).get? id).getD old = other := by
      rw [hother, getD_some]
    have hfp := hfingerprint.eq_of_others fun r hr => congrArg _ (hold r hr)
    have hra := hremovedAt.eq_of_others fun r hr => congrArg _ (hold r hr)
    dsimp only at hfp hra
    rw [hwinner] at hfp hra
    refine ⟨other, mem_activeEncryptForEntries.mpr ⟨hother, ?_⟩, hfp.symm⟩
    rwa [EncryptForEntry.isActive, ← hra]
  | none =>
    obtain ⟨r, hr⟩ := h.added (id, entry) hmem hbase
    have hreplica := mem_activeEncryptForEntries.mpr ⟨hr, hactive⟩
    by_cases hwinner : r = winner
    · exact ⟨entry, hwinner ▸ hreplica, rfl⟩
    · exact hlisted r hwinner _ hreplica hbase

section

variable [DecidableEq S]

/-- What the creator of a document has. -/
theorem recalls_create {unicode : UnicodeTables} {session : S} {directory : RecipientDirectory}
    {specs : List RecipientSpec} {options : RecipientOptions} {dek : DocKey} {now : Timestamp}
    {signer : JSString} {created : SealedState S}
    (hcreated : create session directory specs options dek now signer = .ok created)
    (hplain : ∀ spec ∈ if options.includesSelf then directory.withSelf specs else specs,
      ∀ target ∈ directory.targetsOf spec, Plain unicode target) :
    ∃ newest, Recalls unicode created newest := by
  obtain ⟨newest, hnewest, hlists⟩ := listsNewest_create hcreated hplain
  obtain ⟨block, -, -, -, hentries, hsessions⟩ := create_spec hcreated
  have hsame : newest = block := by
    have hmem := (newestBlock_spec hnewest).1
    rw [hentries] at hmem
    exact mem_singleton.mp hmem
  refine ⟨newest, hnewest, hlists, fun other block' hblock => ?_⟩
  rw [hsessions, hentries] at *
  by_cases hother : other = session
  · rw [hother, Function.update_self] at hblock ⊢
    exact ⟨le_rfl, .inr ((some.inj hblock).symm.trans hsame.symm)⟩
  · rw [Function.update_of_ne hother] at hblock
    exact nomatch hblock

/-- **A session of a replica has every key after the exchange**, where the newest block packs them
and is wrapped for it. -/
theorem CacheOf.ingest {generations all : List DocKey} {newest : EntryRecipients}
    (hperm : newest.generations.Perm all) (hepoch : newest.epoch = all.length)
    (hlength : generations = all ∨ generations.length < all.length) {keys : List JSString}
    (hkeys : ∃ key ∈ keys, newest.IsWrappedFor key) {cached : Option (List DocKey)}
    (hcached : ∀ kept, cached = some kept → CacheOf generations kept) :
    ∃ found, ingestSealedRecipients keys cached newest = some found ∧ found.Perm all := by
  by_cases hskips : Skips cached newest
  · rw [ingestSealedRecipients_of_skips hskips]
    obtain ⟨kept, rfl, hle, -⟩ := hskips
    have hkept := hcached kept rfl
    have hle' := hkept.length_le
    obtain rfl : generations = all := hlength.resolve_right fun hlt => by omega
    exact ⟨kept, rfl, hkept.perm (by omega)⟩
  · rw [ingestSealedRecipients_of_not_skips hskips hkeys]
    exact ⟨_, rfl, (reverse_perm _).trans hperm⟩

/-- **Concurrent changes of the recipients converge** where one replica has the newest block, and
the others remove nobody, bring nobody back, and add only whom that replica lists, too. -/
theorem exchange_converges {R : Type} {unicode : UnicodeTables} {session : S}
    {directory : RecipientDirectory} {specs : List RecipientSpec} {options : RecipientOptions}
    {dek : DocKey} {now : Timestamp} {signer : JSString} {created : SealedState S}
    (hcreated : create session directory specs options dek now signer = .ok created)
    (hplain : ∀ spec ∈ if options.includesSelf then directory.withSelf specs else specs,
      ∀ target ∈ directory.targetsOf spec, Plain unicode target)
    {before : List (SealedOp S)} {ops : R → List (SealedOp S)} {winner : R}
    (hwinner : Run (Sound unicode) (fun _ => False) created (before ++ ops winner))
    (hothers : ∀ r, r ≠ winner → Run Legitimate (fun _ => False) created (before ++ ops r)
      ∧ Along Extends (created.run before) (ops r))
    (hlisted : ∀ r, r ≠ winner →
      ∀ entry ∈ activeEncryptForEntries (created.run (before ++ ops r)).encryptFor,
        (created.run before).encryptFor.get? entry.1 = none →
          ∃ other, (entry.1, other) ∈ activeEncryptForEntries
              (created.run (before ++ ops winner)).encryptFor
            ∧ other.keyFingerprint = entry.2.keyFingerprint)
    {merged : List SealedEntry}
    (hmerged : ∀ entry, entry ∈ merged ↔ ∃ r, entry ∈ (created.run (before ++ ops r)).entries)
    (hnewest : newestBlock merged = newestBlock (created.run (before ++ ops winner)).entries)
    {map : EncryptFor} (hmap : MergesEncryptFor (created.run before).encryptFor
      (fun r => (created.run (before ++ ops r)).encryptFor) map) :
    ∀ entry ∈ activeEncryptForEntries map, ∃ fingerprint ∈ entry.2.keyFingerprint,
      ∀ keys, fingerprint ∈ keys → ∀ cached, (cached = none ∨ ∃ r session,
        ¬ failedSince (fun _ => False) created (before ++ ops r) session
          ∧ ((created.run (before ++ ops r)).sessions session).sealedGenerations = cached) →
      ∃ generations, ingestSealedFromEntries keys cached merged = some generations
        ∧ ∀ entry ∈ merged, entry.key ∈ generations := by
  obtain ⟨hbefore, hwins⟩ := run_append.mp hwinner
  have hsound : ∀ (state : SealedState S) op, Sound unicode state op → state.IsRecipient op :=
    fun _ _ h => h.legitimate.recipient
  obtain ⟨base, hbase, -, -, -⟩ := (holds_create hcreated).run_spec hsound hbefore
  obtain ⟨first, hfirst⟩ := recalls_create hcreated hplain
  obtain ⟨common, hcommon⟩ := hfirst.run (holds_create hcreated) hbefore
  obtain ⟨newest, hrecalls⟩ := hcommon.run hbase hwins
  obtain ⟨all, hall, hsubset, hlength, -⟩ := hbase.run_spec hsound hwins
  have hstate : ∀ r, created.run (before ++ ops r) = (created.run before).run (ops r) :=
    fun r => foldl_append
  -- the keys of every replica are among those of the winner
  have hreplica : ∀ r, ∃ generations, Holds (failedSince (fun _ => False) created (before ++ ops r))
        (created.run (before ++ ops r)) generations
      ∧ generations ⊆ all ∧ (generations = all ∨ generations.length < all.length) := by
    intro r
    rw [failedSince_append, hstate]
    by_cases hr : r = winner
    · rw [hr]
      exact ⟨all, hall, List.Subset.refl _, Or.inl rfl⟩
    · obtain ⟨hrun, hextends⟩ := hothers r hr
      obtain ⟨generations, hlast, -, -, hkeeps⟩ := hbase.run_spec
        (fun _ _ h => h.recipient) (run_append.mp hrun).2
      rw [hkeeps (hextends.imp fun _ _ h => h.keepsEpoch)] at hlast
      exact ⟨base, hlast, hsubset, hlength.imp_left Eq.symm⟩
  obtain ⟨block, hblock, hmem, hepoch⟩ := hall.exists_newest
  obtain rfl := some.inj (hblock.symm.trans hrecalls.isNewest)
  have hpacks := (hall.blocks block hmem).perm hepoch
  intro entry hentry
  obtain ⟨other, hother, hsame⟩ := hmap.listed
    (fun id hid => by
      rw [hstate]
      exact hbase.isSome_get?_run hsound hwins hid)
    (fun r hr id old hold => by
      rw [hstate]
      exact hbase.get?_run (run_append.mp (hothers r hr).1).2 (hothers r hr).2 hold)
    hlisted hentry
  rw [hstate] at hother
  obtain ⟨fingerprint, hfingerprint, -⟩ := hrecalls.lists.fingerprint _ hother
  have hwrapped := (hrecalls.lists.wraps fingerprint).mpr ⟨_, hother, hfingerprint⟩
  refine ⟨fingerprint, hsame.symm.trans hfingerprint, fun keys hkeys cached hcached => ?_⟩
  obtain ⟨generations, hshort, hcache⟩ : ∃ generations,
      (generations = all ∨ generations.length < all.length)
        ∧ ∀ kept, cached = some kept → CacheOf generations kept := by
    rcases hcached with rfl | ⟨r, session', hfailed, rfl⟩
    · exact ⟨all, Or.inl rfl, nofun⟩
    · obtain ⟨generations, hlast, -, hshort⟩ := hreplica r
      exact ⟨generations, hshort, hlast.caches session' hfailed⟩
  obtain ⟨found, hfound, hperm⟩ :=
    CacheOf.ingest hpacks hepoch hshort ⟨fingerprint, hkeys, hwrapped⟩ hcache
  refine ⟨found, ?_, fun written hwritten => ?_⟩
  · rw [ingestSealedFromEntries, hnewest, hstate, hblock]
    exact hfound
  · obtain ⟨r, hr⟩ := (hmerged written).mp hwritten
    obtain ⟨generations, hlast, hsub, -⟩ := hreplica r
    exact hperm.mem_iff.mpr (hsub (hlast.keys written hr))

end

/-! ### Two removals -/

/-- The creator removes `c`, in another session. -/
def removeC : SealedOp ℕ where
  session := 1
  opening := .fresh
  write := { keys := ["CN=a/O=x"], now := sampleTime, stored := true }
  action := .mutateRecipients {
    mode := .remove
    specs := [.user "c/x"]
    options := {}
    directory := everybody
    nextDek := docKey 3
    signer := "a" }

/-- What happens on two replicas of the document. -/
def replicaOps (first second : SealedOp ℕ) (r : Bool) : List (SealedOp ℕ) :=
  if r then [first] else [second]

/-- The entries of two replicas of the document. -/
def exchanged (first second : SealedOp ℕ) : List SealedEntry :=
  (sharedDocument.run [first]).entries ++ (sharedDocument.run [second]).entries

theorem mem_exchanged (first second : SealedOp ℕ) (entry : SealedEntry) :
    entry ∈ exchanged first second ↔
      ∃ r, entry ∈ (sharedDocument.run ([] ++ replicaOps first second r)).entries := by
  rw [exchanged, mem_append, Bool.exists_bool]
  exact or_comm

theorem legitimate_removeB : Run Legitimate (fun _ => False) sharedDocument [removeB] := by
  refine ⟨⟨by decide +kernel, ?_⟩, nofun, trivial⟩
  rintro _ ⟨⟩
  rw [IsNewKey]
  decide +kernel

theorem legitimate_removeC : Run Legitimate (fun _ => False) sharedDocument [removeC] := by
  refine ⟨⟨by decide +kernel, ?_⟩, nofun, trivial⟩
  rintro _ ⟨⟩
  rw [IsNewKey]
  decide +kernel

/-- `a` removes `b` on one replica, and `c` changes the document on another. -/
theorem exchange_converges_removeB :
    1 < (exchanged removeB (changeBy 1 .fresh "CN=c/O=x")).length
      ∧ ∀ entry ∈ activeEncryptForEntries (sharedDocument.run [removeB]).encryptFor,
      ∃ fingerprint ∈ entry.2.keyFingerprint, ∀ keys, fingerprint ∈ keys → ∀ cached,
        (cached = none ∨ ∃ r session, ¬ failedSince (fun _ => False) sharedDocument
            ([] ++ replicaOps removeB (changeBy 1 .fresh "CN=c/O=x") r) session
          ∧ ((sharedDocument.run ([] ++ replicaOps removeB
            (changeBy 1 .fresh "CN=c/O=x") r)).sessions session).sealedGenerations = cached) →
        ∃ generations, ingestSealedFromEntries keys cached
            (exchanged removeB (changeBy 1 .fresh "CN=c/O=x")) = some generations
          ∧ ∀ entry ∈ exchanged removeB (changeBy 1 .fresh "CN=c/O=x"),
            entry.key ∈ generations := by
  refine ⟨by decide +kernel, ?_⟩
  have hwinner : Run (Sound asciiTables) (fun _ => False) sharedDocument
      ([] ++ replicaOps removeB (changeBy 1 .fresh "CN=c/O=x") true) := by
    refine ⟨⟨legitimate_removeB.1, ?_⟩, nofun, trivial⟩
    rintro change haction -
    refine ⟨by decide +kernel, fun change' plan haction' hplan => ?_⟩
    obtain rfl := SealedAction.mutateRecipients.inj haction'
    refine forall_ok ?_ plan hplan
    decide +kernel
  refine exchange_converges create_sharedDocument (by decide +kernel) hwinner ?_ ?_
    (mem_exchanged removeB (changeBy 1 .fresh "CN=c/O=x")) (by decide +kernel) (by decide +kernel)
  · rintro r hr
    obtain rfl := Bool.eq_false_iff.mpr hr
    exact ⟨⟨⟨by decide +kernel, nofun⟩, nofun, trivial⟩, nofun, trivial⟩
  · rintro r hr
    obtain rfl := Bool.eq_false_iff.mpr hr
    have hbase : ∀ entry ∈ activeEncryptForEntries (sharedDocument.run
        ([] ++ replicaOps removeB (changeBy 1 .fresh "CN=c/O=x") false)).encryptFor,
        (sharedDocument.run []).encryptFor.get? entry.1 ≠ none := by decide +kernel
    exact fun entry hentry hnone => absurd hnone (hbase entry hentry)

/-- **Nobody who is listed reads the entry of the first removal**: the newest block is of the
other. -/
theorem not_exchange_converges :
    ¬ ∀ (session : ℕ) (directory : RecipientDirectory) (specs : List RecipientSpec)
        (options : RecipientOptions) (dek : DocKey) (now : Timestamp) (signer : JSString)
        (created : SealedState ℕ),
      create session directory specs options dek now signer = .ok created →
      ∀ (before : List (SealedOp ℕ)) (ops : Bool → List (SealedOp ℕ)),
        (∀ r, Run Legitimate (fun _ => False) created (before ++ ops r)) →
        ∀ merged : List SealedEntry,
          (∀ entry, entry ∈ merged ↔ ∃ r, entry ∈ (created.run (before ++ ops r)).entries) →
          ∀ map, MergesEncryptFor (created.run before).encryptFor
              (fun r => (created.run (before ++ ops r)).encryptFor) map →
            ∀ entry ∈ activeEncryptForEntries map, ∃ fingerprint ∈ entry.2.keyFingerprint,
              ∀ keys, fingerprint ∈ keys →
                ∃ generations, ingestSealedFromEntries keys none merged = some generations
                  ∧ ∀ entry ∈ merged, entry.key ∈ generations := by
  intro h
  have hlegitimate : ∀ r, Run Legitimate (fun _ => False) sharedDocument
      ([] ++ replicaOps removeB removeC r) := by
    rintro (_ | _)
    · exact legitimate_removeC
    · exact legitimate_removeB
  have hmap : MergesEncryptFor (sharedDocument.run []).encryptFor
      (fun r => (sharedDocument.run ([] ++ replicaOps removeB removeC r)).encryptFor)
      (applyEncryptForRemoves (sharedDocument.run [removeB]).encryptFor ["CN=c/O=x"] 3 "a") := by
    decide +kernel
  have hlost : ∀ entry ∈ activeEncryptForEntries (applyEncryptForRemoves
      (sharedDocument.run [removeB]).encryptFor ["CN=c/O=x"] 3 "a"),
      ∀ fingerprint ∈ entry.2.keyFingerprint,
        ∀ generations ∈ ingestSealedFromEntries [fingerprint] none (exchanged removeB removeC),
          ∃ written ∈ exchanged removeB removeC, written.key ∉ generations := by decide +kernel
  have hlisted : ∃ entry, entry ∈ activeEncryptForEntries (applyEncryptForRemoves
      (sharedDocument.run [removeB]).encryptFor ["CN=c/O=x"] 3 "a") :=
    exists_mem_of_ne_nil _ (by decide +kernel)
  obtain ⟨entry, hentry⟩ := hlisted
  obtain ⟨fingerprint, hfingerprint, hreads⟩ := h 0 everybody _ _ _ _ _ _ create_sharedDocument []
    (replicaOps removeB removeC) hlegitimate _ (mem_exchanged removeB removeC) _ hmap entry hentry
  obtain ⟨generations, hingest, hall⟩ := hreads [fingerprint] mem_cons_self
  obtain ⟨written, hwritten, hnot⟩ := hlost entry hentry fingerprint hfingerprint generations hingest
  exact hnot (hall written hwritten)

end MindooDB.Sealed
