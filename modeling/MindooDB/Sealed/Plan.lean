import MindooDB.Sealed.Session

/-!
# Sealed/Plan — what a change of the recipients plans

A plan resolves the named recipients and the listed ones, and wraps the keys for those who remain.
-/

namespace MindooDB.Sealed

open EncryptForEntry LinkedMap List

/-- What returns has returned from its first step. -/
theorem bind_eq_ok {ε α β : Type} {x : Except ε α} {f : α → Except ε β} {b : β}
    (h : x >>= f = .ok b) : ∃ a, x = .ok a ∧ f a = .ok b := by
  cases x with
  | error e => exact nomatch h
  | ok a => exact ⟨a, rfl, h⟩

/-! ## Resolved targets -/

variable {target : ResolvedWrapTarget} {targets existing : List ResolvedWrapTarget}

namespace RecipientDirectory

variable {directory : RecipientDirectory}

/-- The targets that the directory resolves a spec to. -/
def targetsOf (directory : RecipientDirectory) (spec : RecipientSpec) : List ResolvedWrapTarget :=
  match directory.resolveOneSpec spec with
  | .error _ => []
  | .ok resolution => resolution.targets

theorem mem_foldl_addTarget {added : List ResolvedWrapTarget}
    (h : target ∈ added.foldl addTarget targets) :
    target ∈ targets ∨ target ∈ added := by
  induction added generalizing targets with
  | nil => exact Or.inl h
  | cons first added ih =>
    rcases ih h with hold | hnew
    · rw [addTarget] at hold
      split_ifs at hold
      · exact Or.inl hold
      · rcases mem_append.mp hold with hold | hfirst
        · exact Or.inl hold
        · exact Or.inr (mem_singleton.mp hfirst ▸ mem_cons_self)
    · exact Or.inr (mem_cons_of_mem _ hnew)

variable {resolved : ResolvedRecipients}

theorem mem_targets_addSpec {strict : Bool} {resolved' : ResolvedRecipients}
    {spec : RecipientSpec} (h : directory.addSpec strict resolved spec = .ok resolved')
    (htarget : target ∈ resolved'.targets) :
    target ∈ resolved.targets ∨ target ∈ directory.targetsOf spec := by
  rw [addSpec] at h
  cases hspec : directory.resolveOneSpec spec with
  | error message =>
    rw [hspec] at h
    dsimp only at h
    split_ifs at h
    obtain rfl := Except.ok.inj h
    exact Or.inl htarget
  | ok resolution =>
    obtain ⟨targets, skipped⟩ := resolution
    rw [hspec] at h
    cases skipped with
    | some reason =>
      dsimp only at h
      split_ifs at h
      obtain rfl := Except.ok.inj h
      exact Or.inl htarget
    | none =>
      obtain rfl := Except.ok.inj h
      exact (mem_foldl_addTarget htarget).imp_right fun hmem => by rwa [targetsOf, hspec]

theorem mem_targets_foldlM {strict : Bool} {specs : List RecipientSpec}
    {resolved' : ResolvedRecipients}
    (h : specs.foldlM (directory.addSpec strict) resolved = .ok resolved')
    (htarget : target ∈ resolved'.targets) :
    target ∈ resolved.targets ∨ ∃ spec ∈ specs, target ∈ directory.targetsOf spec := by
  induction specs generalizing resolved with
  | nil =>
    obtain rfl := Except.ok.inj h
    exact Or.inl htarget
  | cons spec specs ih =>
    rw [foldlM_cons] at h
    obtain ⟨middle, hfirst, h⟩ := bind_eq_ok h
    rcases ih h with hmiddle | ⟨other, hother, hresolves⟩
    · rcases mem_targets_addSpec hfirst hmiddle with hold | hresolves
      · exact Or.inl hold
      · exact Or.inr ⟨spec, mem_cons_self, hresolves⟩
    · exact Or.inr ⟨other, mem_cons_of_mem _ hother, hresolves⟩

theorem resolveRecipientSpecs_spec {specs : List RecipientSpec} {options : RecipientOptions}
    {resolved : ResolvedRecipients}
    (h : directory.resolveRecipientSpecs specs options = .ok resolved) :
    (if options.includesSelf then directory.withSelf specs else specs).foldlM
      (directory.addSpec (options.strict = some true)) {} = .ok resolved
        ∧ resolved.targets ≠ [] := by
  rw [resolveRecipientSpecs] at h
  obtain ⟨_, hnames, h⟩ := bind_eq_ok h
  simp only [bind, Except.bind] at h
  split at h
  · exact nomatch h
  · rename_i found hfound
    by_cases hempty : found.targets.isEmpty = true
    · rw [if_pos hempty] at h
      exact nomatch h
    · rw [if_neg hempty] at h
      obtain rfl := Except.ok.inj h
      exact ⟨hfound, mt List.isEmpty_iff.mpr hempty⟩

/-- **Every target is that of a spec**, or of the current user. -/
theorem mem_targets_resolveRecipientSpecs {specs : List RecipientSpec} {options : RecipientOptions}
    (h : directory.resolveRecipientSpecs specs options = .ok resolved)
    (htarget : target ∈ resolved.targets) :
    ∃ spec ∈ if options.includesSelf then directory.withSelf specs else specs,
      target ∈ directory.targetsOf spec :=
  (mem_targets_foldlM (resolveRecipientSpecs_spec h).1 htarget).resolve_left not_mem_nil

end RecipientDirectory

/-! ## The list -/

theorem baseId_baseId (id : JSString) : baseId (baseId id) = baseId id :=
  congrArg JSString.mk takeWhile_idem

/-- An id with a suffix means who the id means. -/
theorem baseId_suffix (id suffix : JSString) : baseId (id ++ "#" ++ suffix) = baseId id := by
  refine congrArg JSString.mk ?_
  change (id.units ++ [0x23] ++ suffix.units).takeWhile _ = _
  rw [append_assoc, takeWhile_append]
  split_ifs with h
  · have hhash : (([0x23] ++ suffix.units).takeWhile fun unit : Fin 65536 => unit ≠ 0x23) = [] := rfl
    rw [hhash, append_nil]
    exact ((List.takeWhile_prefix _).eq_of_length h).symm
  · rfl

variable {entry : EncryptForEntry} {epoch : ℕ} {added : List (JSString × EncryptForEntry)}

theorem mem_activeEncryptForEntries {map : EncryptFor} {id : JSString} :
    (id, entry) ∈ activeEncryptForEntries map ↔ map.get? id = some entry ∧ entry.isActive = true := by
  rw [activeEncryptForEntries, mem_filter, ← mem_toList_iff]

/-- A recipient has an active entry. -/
def Listed (recipient : JSString) (map : EncryptFor) : Prop :=
  ∃ entry ∈ activeEncryptForEntries map, baseId entry.1 = recipient

instance (recipient : JSString) (map : EncryptFor) : Decidable (Listed recipient map) :=
  inferInstanceAs (Decidable (∃ entry ∈ activeEncryptForEntries map, _))

/-- Who is listed after somebody is added was listed before, or was added. -/
theorem mem_active_addEncryptForEntry {map : EncryptFor} {added : JSString × EncryptForEntry}
    {id : JSString}
    (h : (id, entry) ∈ activeEncryptForEntries (addEncryptForEntry epoch map added)) :
    (id, entry) ∈ activeEncryptForEntries map ∨ baseId id = baseId added.1 := by
  have hset : ∀ other, baseId other = baseId added.1 →
      (id, entry) ∈ activeEncryptForEntries (map.set other added.2) →
      (id, entry) ∈ activeEncryptForEntries map ∨ baseId id = baseId added.1 := by
    intro other hother hmem
    rw [mem_activeEncryptForEntries, get?_set] at hmem
    split_ifs at hmem with hid
    · exact Or.inr (hid ▸ hother)
    · exact Or.inl (mem_activeEncryptForEntries.mpr hmem)
  rw [addEncryptForEntry] at h
  split at h
  · exact hset _ rfl h
  · split_ifs at h
    · exact Or.inl h
    · exact hset _ (baseId_suffix _ _) h

theorem mem_active_applyEncryptForAdds {map : EncryptFor} {id : JSString}
    (h : (id, entry) ∈ activeEncryptForEntries (applyEncryptForAdds map added epoch)) :
    (id, entry) ∈ activeEncryptForEntries map ∨ ∃ other ∈ added, baseId id = baseId other.1 := by
  rw [applyEncryptForAdds] at h
  induction added generalizing map with
  | nil => exact Or.inl h
  | cons first added ih =>
    rcases ih h with hmiddle | ⟨other, hother, hbase⟩
    · rcases mem_active_addEncryptForEntry hmiddle with hold | hbase
      · exact Or.inl hold
      · exact Or.inr ⟨first, mem_cons_self, hbase⟩
    · exact Or.inr ⟨other, mem_cons_of_mem _ hother, hbase⟩

/-- Who is listed stays so when somebody is added. -/
theorem isActive_addEncryptForEntry {map : EncryptFor} {added : JSString × EncryptForEntry}
    (hadded : added.2.isActive = true) {id : JSString}
    (h : (map.get? id).any isActive = true) :
    ((addEncryptForEntry epoch map added).get? id).any isActive = true := by
  have hset : ∀ other, ((map.set other added.2).get? id).any isActive = true := by
    intro other
    rw [get?_set]
    split_ifs
    · exact hadded
    · exact h
  rw [addEncryptForEntry]
  split
  · exact hset _
  · split_ifs
    · exact h
    · exact hset _

theorem isActive_applyEncryptForAdds
    (hadded : ∀ entry ∈ added, entry.2.isActive = true) {map : EncryptFor}
    {id : JSString} (h : (map.get? id).any isActive = true) :
    ((applyEncryptForAdds map added epoch).get? id).any isActive = true := by
  rw [applyEncryptForAdds]
  induction added generalizing map with
  | nil => exact h
  | cons first added ih =>
    obtain ⟨hfirst, hrest⟩ := forall_mem_cons.mp hadded
    exact ih hrest (isActive_addEncryptForEntry hfirst h)

theorem get?_removeEncryptForEntry (map : EncryptFor) (stableIds : List JSString) (now : ℤ)
    (removedBy other id : JSString) :
    (removeEncryptForEntry stableIds now removedBy map other).get? id =
      if id = other then (map.get? id).map (removedEntry stableIds now removedBy id)
      else map.get? id := by
  rw [removeEncryptForEntry]
  by_cases hid : id = other
  · subst hid
    rw [if_pos rfl]
    cases h : map.get? id with
    | none => exact h
    | some entry => exact get?_set_self _ _ _
  · rw [if_neg hid]
    cases map.get? other with
    | none => rfl
    | some entry => exact get?_set_of_ne _ _ hid

/-- **The list after some ids are removed**, entry by entry. -/
theorem get?_applyEncryptForRemoves (map : EncryptFor) (stableIds : List JSString) (now : ℤ)
    (removedBy id : JSString) : (applyEncryptForRemoves map stableIds now removedBy).get? id =
      (map.get? id).map (removedEntry stableIds now removedBy id) := by
  have hfold : ∀ (ids : List JSString) (m : EncryptFor), ids.Nodup →
      (ids.foldl (removeEncryptForEntry stableIds now removedBy) m).get? id =
        if id ∈ ids then (m.get? id).map (removedEntry stableIds now removedBy id)
        else m.get? id := by
    intro ids
    induction ids with
    | nil => exact fun m _ => rfl
    | cons first ids ih =>
      intro m hnodup
      obtain ⟨hfirst, hrest⟩ := nodup_cons.mp hnodup
      rw [foldl_cons, ih _ hrest, get?_removeEncryptForEntry]
      by_cases hid : id = first
      · subst hid
        rw [if_neg hfirst, if_pos rfl, if_pos mem_cons_self]
      · rw [if_neg hid]
        simp only [mem_cons, hid, false_or]
  rw [applyEncryptForRemoves, hfold _ _ map.nodup_keys]
  split_ifs with hid
  · rfl
  · rw [notMem_keys_iff.mp hid]
    rfl

/-! ## The targets that remain -/

theorem get?_foldl_delete {entries : List (JSString × ResolvedWrapTarget)}
    {others : LinkedMap JSString ResolvedWrapTarget} {key : JSString} :
    (entries.foldl (fun others entry => others.delete entry.1) others).get? key =
      if key ∈ entries.map Prod.fst then none else others.get? key := by
  induction entries generalizing others with
  | nil => rfl
  | cons entry entries ih =>
    rw [foldl_cons, ih, get?_delete]
    by_cases hkey : key = entry.1
    · simp [hkey]
    · rw [if_neg hkey]
      exact if_congr (by simp [hkey]) rfl rfl

namespace RecipientChange

theorem get?_deleteRemoved (remaining : LinkedMap JSString ResolvedWrapTarget)
    (id key : JSString) : (deleteRemoved remaining id).get? key =
      if key = id then none else (remaining.get? key).filter fun target => !goesWith id target := by
  rw [deleteRemoved, get?_foldl_delete, get?_delete]
  by_cases hkey : key = id
  · rw [if_pos hkey, if_pos hkey, ite_self]
  · rw [if_neg hkey, if_neg hkey]
    have hmem : key ∈ (((remaining.delete id).toList.filter fun entry => goesWith id entry.2).map
        Prod.fst) ↔ ∃ target, remaining.get? key = some target ∧ goesWith id target = true := by
      rw [mem_map]
      constructor
      · rintro ⟨⟨_, target⟩, hentry, rfl⟩
        obtain ⟨hmem, hgoes⟩ := mem_filter.mp hentry
        rw [mem_toList_iff, get?_delete_of_ne _ hkey] at hmem
        exact ⟨target, hmem, hgoes⟩
      · rintro ⟨target, hget, hgoes⟩
        refine ⟨(key, target), mem_filter.mpr ⟨?_, hgoes⟩, rfl⟩
        rw [mem_toList_iff, get?_delete_of_ne _ hkey]
        exact hget
    by_cases hgoes : ∃ target, remaining.get? key = some target ∧ goesWith id target = true
    · obtain ⟨target, hget, htarget⟩ := hgoes
      rw [if_pos (hmem.mpr ⟨target, hget, htarget⟩), hget]
      exact (Option.filter_some_neg (by rw [htarget, Bool.not_true])).symm
    · rw [if_neg (mt hmem.mp hgoes)]
      cases hget : remaining.get? key with
      | none => rfl
      | some target =>
        have htarget : goesWith id target = false :=
          Bool.eq_false_iff.mpr fun htrue => hgoes ⟨target, hget, htrue⟩
        exact (Option.filter_some_pos (by rw [htarget, Bool.not_false])).symm

theorem get?_foldl_deleteRemoved (removed : List JSString)
    (remaining : LinkedMap JSString ResolvedWrapTarget) (key : JSString) :
    (removed.foldl deleteRemoved remaining).get? key =
      if key ∈ removed then none
      else (remaining.get? key).filter fun target => !removed.any fun id => goesWith id target := by
  induction removed generalizing remaining with
  | nil =>
    rw [foldl_nil, if_neg not_mem_nil]
    cases remaining.get? key <;> rfl
  | cons id removed ih =>
    rw [foldl_cons, ih, get?_deleteRemoved]
    by_cases hremoved : key ∈ removed
    · rw [if_pos hremoved, if_pos (mem_cons_of_mem _ hremoved)]
    · rw [if_neg hremoved]
      by_cases hkey : key = id
      · rw [if_pos hkey, if_pos (hkey ▸ mem_cons_self)]
        rfl
      · rw [if_neg hkey, if_neg (by simp [hkey, hremoved]), Option.filter_filter]
        refine congrArg (fun p => Option.filter p (remaining.get? key)) (funext fun target => ?_)
        simp only [any_cons, Bool.not_or]

/-- The targets, each under its stable id; the later ones in place of the earlier. -/
theorem get?_foldl_set_stableId {targets : List ResolvedWrapTarget}
    {remaining : LinkedMap JSString ResolvedWrapTarget} {key : JSString}
    {target : ResolvedWrapTarget} (h : (targets.foldl (fun remaining target =>
      remaining.set target.stableId target) remaining).get? key = some target) :
    remaining.get? key = some target ∨ target ∈ targets ∧ target.stableId = key := by
  induction targets generalizing remaining with
  | nil => exact Or.inl h
  | cons first targets ih =>
    rcases ih h with hold | ⟨hmem, hkey⟩
    · rw [get?_set] at hold
      split_ifs at hold with hkey
      · obtain rfl := Option.some.inj hold
        exact Or.inr ⟨mem_cons_self, hkey.symm⟩
      · exact Or.inl hold
    · exact Or.inr ⟨mem_cons_of_mem _ hmem, hkey⟩

/-- **Who remains was listed or is added, and is not removed.** -/
theorem mem_values_remainingTargets {added : List ResolvedWrapTarget} {removed : List JSString}
    (h : target ∈ (remainingTargets existing added removed).values) :
    (target ∈ existing ∨ target ∈ added) ∧ target.stableId ∉ removed := by
  obtain ⟨key, hget⟩ := mem_values_iff.mp h
  rw [remainingTargets, get?_foldl_deleteRemoved] at hget
  split_ifs at hget with hremoved
  obtain ⟨hget, -⟩ := Option.filter_eq_some_iff.mp hget
  rcases get?_foldl_set_stableId hget with hempty | ⟨hmem, rfl⟩
  · cases hempty
  · exact ⟨mem_append.mp hmem, hremoved⟩

end RecipientChange

namespace RecipientChange

variable {change : RecipientChange} {map : EncryptFor} {session : SealedSession}
  {plan : RecipientPlan}

/-- What a plan is made of: the targets that the caller names, and those of who is listed. -/
structure IsPlan (change : RecipientChange) (map : EncryptFor) (session : SealedSession)
    (plan : RecipientPlan) (resolved existing : List ResolvedWrapTarget) : Prop where
  resolve : ∃ skipped, change.resolve = .ok ⟨resolved, skipped⟩
  existingTargets : change.existingTargets map = .ok existing
  added : plan.addedTargets = change.addedTargets map resolved
  removed : plan.removedStableIds = change.removedStableIds map resolved
  keys : session.sealedGenerations.getD [] ≠ []
  generations : plan.generations = if plan.removedStableIds.isEmpty then
    session.sealedGenerations.getD [] else change.nextDek :: session.sealedGenerations.getD []
  epoch : plan.epoch = (session.sealedRecipients.map EntryRecipients.epoch).getD
    (session.sealedGenerations.getD []).length + if plan.removedStableIds.isEmpty then 0 else 1
  remaining : plan.remaining =
    (remainingTargets existing plan.addedTargets plan.removedStableIds).values
  remaining_ne_nil : plan.remaining ≠ []

theorem plan_spec (h : change.plan map session = .ok plan) :
    ∃ resolved existing, change.IsPlan map session plan resolved existing := by
  rw [RecipientChange.plan] at h
  cases hresolve : change.resolve with
  | error message =>
    rw [hresolve] at h
    exact nomatch h
  | ok resolved =>
    cases hexisting : change.existingTargets map with
    | error message =>
      rw [hresolve, hexisting] at h
      simp only [bind, Except.bind] at h
      split at h <;> exact nomatch h
    | ok existing =>
      rw [hresolve, hexisting] at h
      simp only [bind, Except.bind] at h
      by_cases hkeys : (session.sealedGenerations.getD []).isEmpty = true
      · rw [if_pos hkeys] at h
        exact nomatch h
      · rw [if_neg hkeys] at h
        by_cases hremaining : (remainingTargets existing (change.addedTargets map resolved.targets)
            (change.removedStableIds map resolved.targets)).values.isEmpty = true
        · rw [if_pos hremaining] at h
          exact nomatch h
        rw [if_neg hremaining] at h
        obtain rfl := Except.ok.inj h
        rw [List.isEmpty_iff] at hkeys hremaining
        refine ⟨resolved.targets, existing, ?_⟩
        exact {
          resolve := ⟨resolved.skipped, hresolve⟩
          existingTargets := hexisting
          added := rfl
          removed := rfl
          keys := hkeys
          generations := rfl
          epoch := by
            dsimp only
            split_ifs <;> rfl
          remaining := rfl
          remaining_ne_nil := hremaining }

/-- Every target of who is listed is that of an entry. -/
theorem mem_existingTargets (h : change.existingTargets map = .ok existing)
    (htarget : target ∈ existing) : ∃ id entry, (id, entry) ∈ activeEncryptForEntries map
      ∧ target ∈ change.directory.targetsOf (existingSpec id entry) := by
  rw [existingTargets] at h
  dsimp only at h
  split_ifs at h with hempty
  · obtain rfl := Except.ok.inj h
    exact nomatch htarget
  · obtain ⟨resolved, hresolved, h⟩ := bind_eq_ok h
    obtain rfl := Except.ok.inj h
    obtain ⟨spec, hspec, hresolves⟩ :=
      RecipientDirectory.mem_targets_resolveRecipientSpecs hresolved htarget
    rw [if_neg (by decide)] at hspec
    obtain ⟨⟨id, entry⟩, hmem, rfl⟩ := mem_map.mp hspec
    exact ⟨id, entry, hmem, hresolves⟩

theorem mem_addedTargets (h : target ∈ change.addedTargets map targets) :
    change.mode ≠ .remove ∧ target ∈ targets ∧ ¬ Listed target.stableId map := by
  rw [addedTargets] at h
  split_ifs at h with hmode
  · exact nomatch h
  · obtain ⟨hmem, hids⟩ := mem_filter.mp h
    refine ⟨hmode, hmem, ?_⟩
    rintro ⟨entry, hentry, hbase⟩
    rw [Bool.and_eq_true, Bool.not_eq_true', contains_eq_mem, decide_eq_false_iff_not] at hids
    exact hids.1 (mem_map.mpr ⟨entry, hentry, hbase⟩)

theorem mem_removedStableIds {targets : List ResolvedWrapTarget} {recipient : JSString}
    (h : recipient ∈ change.removedStableIds map targets) : Listed recipient map := by
  obtain ⟨entry, hmem, hbase⟩ := mem_map.mp h
  exact ⟨entry, (mem_filter.mp hmem).1, hbase⟩

/-- **Who is listed after a change** was listed before, or is added. -/
theorem listed_of_listed_apply {now : ℤ} {signer recipient : JSString}
    (h : Listed recipient (plan.apply now signer map)) : Listed recipient map
      ∨ ∃ target ∈ plan.addedTargets, baseId target.stableId = recipient := by
  obtain ⟨⟨id, entry⟩, hentry, hbase⟩ := h
  rw [mem_activeEncryptForEntries, RecipientPlan.apply, get?_applyEncryptForRemoves,
    Option.map_eq_some_iff] at hentry
  obtain ⟨⟨other, hget, rfl⟩, hactive⟩ := hentry
  have hother : other.isActive = true := by
    rw [removedEntry] at hactive
    split_ifs at hactive with hremoved
    · exact (Bool.and_eq_true_iff.mp hremoved).2
    · exact hactive
  rcases mem_active_applyEncryptForAdds (mem_activeEncryptForEntries.mpr ⟨hget, hother⟩) with
    hold | ⟨added, hadded, hsame⟩
  · exact Or.inl ⟨(id, other), hold, hbase⟩
  · obtain ⟨target, htarget, rfl⟩ := mem_map.mp hadded
    exact Or.inr ⟨target, htarget, hsame.symm.trans hbase⟩

/-- **Who is no longer listed is removed.** -/
theorem mem_removed_of_not_listed_apply
    (hremoved : plan.removedStableIds = change.removedStableIds map targets) {now : ℤ}
    {signer recipient : JSString} (h : Listed recipient map)
    (hnot : ¬ Listed recipient (plan.apply now signer map)) :
    recipient ∈ plan.removedStableIds := by
  obtain ⟨⟨id, entry⟩, hentry, rfl⟩ := h
  obtain ⟨hget, hactive⟩ := mem_activeEncryptForEntries.mp hentry
  have hadds : ((applyEncryptForAdds map
      (plan.addedTargets.map fun target => (target.stableId, target.toEntry now signer))
      plan.epoch).get? id).any isActive = true := by
    refine isActive_applyEncryptForAdds ?_ (by rw [hget]; exact hactive)
    intro added hadded
    obtain ⟨target, -, rfl⟩ := mem_map.mp hadded
    rfl
  obtain ⟨other, hother, hotherActive⟩ := (Option.any_eq_true _ _).mp hadds
  by_cases hid : isRemovedId plan.removedStableIds id = true
  · rcases Bool.or_eq_true_iff.mp hid with hbase | hself
    · exact contains_iff_mem.mp hbase
    · -- a removed id is one without a suffix
      have hmem := contains_iff_mem.mp hself
      obtain ⟨other', -, hbase⟩ := mem_removedStableIds (hremoved ▸ hmem)
      rwa [← hbase, baseId_baseId, hbase]
  · refine absurd ⟨(id, other), mem_activeEncryptForEntries.mpr ⟨?_, hotherActive⟩, rfl⟩ hnot
    rw [RecipientPlan.apply, get?_applyEncryptForRemoves, hother, Option.map_some, removedEntry,
      if_neg (by simp [hid])]

/-- The specs of a change. -/
def namedSpecs (change : RecipientChange) : List RecipientSpec :=
  if change.includesSelf then change.directory.withSelf change.specs else change.specs

/-- A target that the caller names is that of a spec. -/
theorem mem_resolved {targets : List ResolvedWrapTarget} {skipped : List (RecipientSpec × JSString)}
    (h : change.resolve = .ok ⟨targets, skipped⟩) {target : ResolvedWrapTarget}
    (htarget : target ∈ targets) :
    ∃ spec ∈ change.namedSpecs, target ∈ change.directory.targetsOf spec := by
  obtain ⟨spec, hspec, hmem⟩ := RecipientDirectory.mem_targets_resolveRecipientSpecs h htarget
  refine ⟨spec, ?_, hmem⟩
  rw [namedSpecs]
  cases hself : change.includesSelf with
  | true | false =>
    rw [hself] at hspec
    exact hspec

/-- **Who remains**: listed or added, and not removed. -/
theorem IsPlan.mem_remaining {resolved : List ResolvedWrapTarget}
    (h : change.IsPlan map session plan resolved existing)
    (htarget : target ∈ plan.remaining) : target.stableId ∉ plan.removedStableIds
      ∧ ((∃ id entry, (id, entry) ∈ activeEncryptForEntries map
          ∧ target ∈ change.directory.targetsOf (existingSpec id entry))
        ∨ target ∈ plan.addedTargets
          ∧ ∃ spec ∈ change.namedSpecs, target ∈ change.directory.targetsOf spec) := by
  rw [h.remaining] at htarget
  obtain ⟨horigin, hnot⟩ := mem_values_remainingTargets htarget
  refine ⟨hnot, horigin.imp (mem_existingTargets h.existingTargets) fun hadded => ⟨hadded, ?_⟩⟩
  obtain ⟨skipped, hresolve⟩ := h.resolve
  exact mem_resolved hresolve (mem_addedTargets (h.added ▸ hadded)).2.1

end RecipientChange

/-! ## A tenant -/

/-- The Unicode tables on ASCII names. -/
def asciiTables : UnicodeTables where
  normalizeNFKC := id
  toUpperCase s :=
    ⟨s.units.map fun unit => if 0x61 ≤ unit.val ∧ unit.val ≤ 0x7A then unit - 0x20 else unit⟩
  toLowerCase s :=
    ⟨s.units.map fun unit => if 0x41 ≤ unit.val ∧ unit.val ≤ 0x5A then unit + 0x20 else unit⟩

/-- Everybody has published a key, and its fingerprint is the name. -/
def everybody : RecipientDirectory where
  unicode := asciiTables
  currentUsername := "a/x"
  publishedUserKeyFor canonical := some ⟨canonical, false⟩
  docs := []
  fingerprintEncryptionPublicKey _ := .error "invalid key"

/-- A key whose bytes are the same. -/
def docKey (byte : UInt8) : DocKey := ⟨List.replicate 32 byte, length_replicate⟩

end MindooDB.Sealed
