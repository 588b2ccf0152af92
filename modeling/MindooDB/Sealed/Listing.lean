import MindooDB.Sealed.Rotation

/-!
# Sealed/Listing — who is listed, and who has a wrap

The list of the payload and the wraps of a block are computed apart: those who stay are resolved
again by what is listed of them.  Where each of them is found under the fingerprint that is listed,
the list and the wraps are of the same people (`recipients_wrapped`).  Who was removed comes back
under an id with a suffix, and is not found by the name (`not_recipients_wrapped`).
-/

namespace MindooDB.Sealed

open LinkedMap List RecipientChange RecipientDirectory SealedState

/-! ## Resolved targets -/

variable {target : ResolvedWrapTarget}

namespace RecipientDirectory

variable {directory : RecipientDirectory}

/-- Resolved targets have stable ids of their own. -/
def Distinct (targets : List ResolvedWrapTarget) : Prop :=
  (targets.map ResolvedWrapTarget.stableId).Nodup

theorem distinct_addTarget {targets : List ResolvedWrapTarget} (h : Distinct targets)
    (target : ResolvedWrapTarget) : Distinct (addTarget targets target) := by
  rw [addTarget]
  split_ifs with hseen
  · exact h
  · rw [Distinct, map_append, nodup_append]
    refine ⟨h, nodup_singleton _, ?_⟩
    rintro id hid other hother rfl
    obtain ⟨t, ht, hid⟩ := mem_map.mp hid
    rw [map_singleton, mem_singleton] at hother
    exact hseen (any_eq_true.mpr ⟨t, ht, decide_eq_true (hid.trans hother)⟩)

variable {resolved resolved' : ResolvedRecipients} {spec : RecipientSpec}
  {specs : List RecipientSpec}

theorem distinct_addSpec {strict : Bool} (h : Distinct resolved.targets)
    (hspec : directory.addSpec strict resolved spec = .ok resolved') :
    Distinct resolved'.targets := by
  rw [addSpec] at hspec
  split at hspec
  · split_ifs at hspec
    obtain rfl := Except.ok.inj hspec
    exact h
  · split_ifs at hspec
    obtain rfl := Except.ok.inj hspec
    exact h
  · rename_i targets _
    obtain rfl := Except.ok.inj hspec
    exact List.foldlRecOn targets addTarget h fun _ hdistinct target _ =>
      distinct_addTarget hdistinct target

theorem distinct_foldlM {strict : Bool} (h : Distinct resolved.targets)
    (hspecs : specs.foldlM (directory.addSpec strict) resolved = .ok resolved') :
    Distinct resolved'.targets := by
  induction specs generalizing resolved with
  | nil =>
    obtain rfl := Except.ok.inj hspecs
    exact h
  | cons spec specs ih =>
    rw [foldlM_cons] at hspecs
    obtain ⟨middle, hfirst, hspecs⟩ := bind_eq_ok hspecs
    exact ih (distinct_addSpec h hfirst) hspecs

theorem distinct_resolveRecipientSpecs {options : RecipientOptions}
    (h : directory.resolveRecipientSpecs specs options = .ok resolved) :
    Distinct resolved.targets := by
  refine distinct_foldlM ?_ (resolveRecipientSpecs_spec h).1
  exact nodup_nil

theorem exists_mem_addTarget {targets : List ResolvedWrapTarget}
    {id : JSString} (h : (∃ t ∈ targets, t.stableId = id) ∨ target.stableId = id) :
    ∃ t ∈ addTarget targets target, t.stableId = id := by
  rw [addTarget]
  split_ifs with hseen
  · rcases h with hold | hid
    · exact hold
    · obtain ⟨t, ht, hsame⟩ := any_eq_true.mp hseen
      exact ⟨t, ht, (of_decide_eq_true hsame).trans hid⟩
  · rcases h with ⟨t, ht, hid⟩ | hid
    · exact ⟨t, mem_append_left _ ht, hid⟩
    · exact ⟨target, mem_append_right _ (mem_singleton_self _), hid⟩

theorem exists_mem_foldl_addTarget {targets added : List ResolvedWrapTarget} {id : JSString}
    (h : (∃ t ∈ targets, t.stableId = id) ∨ ∃ t ∈ added, t.stableId = id) :
    ∃ t ∈ added.foldl addTarget targets, t.stableId = id := by
  induction added generalizing targets with
  | nil =>
    refine h.resolve_right ?_
    rintro ⟨_, hmem, _⟩
    cases hmem
  | cons first added ih =>
    refine ih ?_
    rcases h with hold | ⟨t, ht, hid⟩
    · exact Or.inl (exists_mem_addTarget (Or.inl hold))
    · rcases mem_cons.mp ht with rfl | ht
      · exact Or.inl (exists_mem_addTarget (Or.inr hid))
      · exact Or.inr ⟨t, ht, hid⟩

/-- A spec that is skipped has no targets. -/
theorem resolveOneSpec_skipped {spec : RecipientSpec} {resolution : SpecResolution}
    (h : directory.resolveOneSpec spec = .ok resolution) {reason : JSString}
    (hskipped : resolution.skipped = some reason) : resolution.targets = [] := by
  cases spec with
  | user username | device fingerprint label =>
    rw [resolveOneSpec] at h
    obtain ⟨target, htarget, h⟩ := bind_eq_ok h
    cases target with
    | none =>
      obtain rfl := Except.ok.inj h
      rfl
    | some target =>
      obtain rfl := Except.ok.inj h
      cases hskipped
  | devicePem pem label =>
    rw [resolveOneSpec] at h
    obtain ⟨fingerprint, hfingerprint, h⟩ := bind_eq_ok h
    obtain rfl := Except.ok.inj h
    cases hskipped

/-- **A target of a spec is taken**, or another one of its stable id. -/
theorem exists_mem_addSpec {strict : Bool}
    (hspec : directory.addSpec strict resolved spec = .ok resolved') {id : JSString}
    (h : (∃ t ∈ resolved.targets, t.stableId = id) ∨ ∃ t ∈ directory.targetsOf spec, t.stableId = id) :
    ∃ t ∈ resolved'.targets, t.stableId = id := by
  rw [addSpec] at hspec
  rw [targetsOf] at h
  cases hone : directory.resolveOneSpec spec with
  | error message =>
    rw [hone] at hspec h
    dsimp only at hspec
    split_ifs at hspec
    obtain rfl := Except.ok.inj hspec
    refine h.resolve_right ?_
    rintro ⟨_, hmem, _⟩
    cases hmem
  | ok resolution =>
    obtain ⟨targets, skipped⟩ := resolution
    rw [hone] at hspec h
    cases skipped with
    | some reason =>
      dsimp only at hspec
      split_ifs at hspec
      obtain rfl := Except.ok.inj hspec
      have hnone : targets = [] := resolveOneSpec_skipped hone rfl
      subst hnone
      refine h.resolve_right ?_
      rintro ⟨_, hmem, _⟩
      cases hmem
    | none =>
      obtain rfl := Except.ok.inj hspec
      exact exists_mem_foldl_addTarget h

theorem exists_mem_foldlM {strict : Bool} {specs : List RecipientSpec}
    {resolved resolved' : ResolvedRecipients}
    (hspecs : specs.foldlM (directory.addSpec strict) resolved = .ok resolved') {id : JSString}
    (h : (∃ t ∈ resolved.targets, t.stableId = id)
      ∨ ∃ spec ∈ specs, ∃ t ∈ directory.targetsOf spec, t.stableId = id) :
    ∃ t ∈ resolved'.targets, t.stableId = id := by
  induction specs generalizing resolved with
  | nil =>
    obtain rfl := Except.ok.inj hspecs
    refine h.resolve_right ?_
    rintro ⟨_, hmem, _⟩
    cases hmem
  | cons spec specs ih =>
    rw [foldlM_cons] at hspecs
    obtain ⟨middle, hfirst, hspecs⟩ := bind_eq_ok hspecs
    refine ih hspecs ?_
    rcases h with hold | ⟨other, hother, hresolves⟩
    · exact Or.inl (exists_mem_addSpec hfirst (Or.inl hold))
    · rcases mem_cons.mp hother with rfl | hother
      · exact Or.inl (exists_mem_addSpec hfirst (Or.inr hresolves))
      · exact Or.inr ⟨other, hother, hresolves⟩

/-- **Whom a spec means is resolved.** -/
theorem exists_mem_resolveRecipientSpecs {options : RecipientOptions}
    (h : directory.resolveRecipientSpecs specs options = .ok resolved)
    (hself : options.includesSelf = false) (hspec : spec ∈ specs)
    (htarget : target ∈ directory.targetsOf spec) :
    ∃ t ∈ resolved.targets, t.stableId = target.stableId := by
  have hspecs := (resolveRecipientSpecs_spec h).1
  rw [hself] at hspecs
  exact exists_mem_foldlM hspecs (Or.inr ⟨spec, hspec, target, htarget, rfl⟩)

theorem resolveUserTarget_id {username : JSString}
    (h : directory.resolveUserTarget username = .ok (some target)) :
    target.id = target.stableId := by
  rw [resolveUserTarget] at h
  obtain ⟨canonical, hcanonical, h⟩ := bind_eq_ok h
  simp only [bind, Except.bind] at h
  cases hpublished : directory.publishedUserKeyFor canonical with
  | none =>
    rw [hpublished] at h
    cases h
  | some published =>
    rw [hpublished] at h
    dsimp only at h
    split_ifs at h
    · cases h
    · cases hlabel : directory.unicode.formatCanonicalUsernameLabel username with
      | error message =>
        rw [hlabel] at h
        cases h
      | ok label =>
        rw [hlabel] at h
        obtain rfl := Option.some.inj (Except.ok.inj h)
        rfl

theorem resolveDeviceTarget_id {fingerprint : JSString} {label : Option JSString}
    {target : ResolvedWrapTarget}
    (h : directory.resolveDeviceTarget fingerprint label = .ok (some target)) :
    target.id = target.stableId := by
  rw [resolveDeviceTarget] at h
  obtain ⟨pair, hpair, h⟩ := bind_eq_ok h
  obtain ⟨-, -, rfl⟩ := Option.map_eq_some_iff.mp (Except.ok.inj h)
  rfl

/-- The two ids of a target are the same. -/
theorem id_eq_stableId (h : target ∈ directory.targetsOf spec) : target.id = target.stableId := by
  rw [targetsOf] at h
  cases spec with
  | user username =>
    rw [resolveOneSpec] at h
    cases htarget : directory.resolveUserTarget username with
    | error message =>
      rw [htarget] at h
      cases h
    | ok target? =>
      rw [htarget] at h
      cases target? with
      | none => cases h
      | some other => exact mem_singleton.mp h ▸ resolveUserTarget_id htarget
  | device fingerprint label =>
    rw [resolveOneSpec] at h
    cases htarget : directory.resolveDeviceTarget fingerprint label with
    | error message =>
      rw [htarget] at h
      cases h
    | ok target? =>
      rw [htarget] at h
      cases target? with
      | none => cases h
      | some other => exact mem_singleton.mp h ▸ resolveDeviceTarget_id htarget
  | devicePem pem label =>
    rw [resolveOneSpec] at h
    cases hfingerprint : directory.fingerprintEncryptionPublicKey pem with
    | error message =>
      rw [hfingerprint] at h
      cases h
    | ok fingerprint =>
      rw [hfingerprint] at h
      rw [mem_singleton.mp h]

end RecipientDirectory

/-! ## The list after a change -/

/-- **Who is added without having been removed is listed under the stable id.** -/
theorem applyEncryptForAdds_of_absent {map : EncryptFor} {added : List (JSString × EncryptForEntry)}
    (hnodup : (added.map Prod.fst).Nodup) (habsent : ∀ entry ∈ added, map.get? entry.1 = none)
    (epoch : ℕ) : (applyEncryptForAdds map added epoch).toList = map.toList ++ added := by
  have hfold : applyEncryptForAdds map added epoch
      = added.foldl (fun map entry => map.set entry.1 entry.2) map := by
    rw [applyEncryptForAdds]
    induction added generalizing map with
    | nil => rfl
    | cons first added ih =>
      obtain ⟨hfirst, hrest⟩ := nodup_cons.mp hnodup
      obtain ⟨hnone, hothers⟩ := forall_mem_cons.mp habsent
      rw [foldl_cons, foldl_cons, addEncryptForEntry, hnone]
      refine ih hrest fun entry hentry => ?_
      rw [get?_set_of_ne]
      · exact hothers entry hentry
      · rintro hsame
        exact hfirst (hsame ▸ mem_map_of_mem hentry)
  rw [hfold, foldl_set_of_nodup]
  refine nodup_append.mpr ⟨map.nodup_keys, hnodup, ?_⟩
  rintro id hid other hother rfl
  obtain ⟨entry, hentry, rfl⟩ := mem_map.mp hother
  exact notMem_keys_iff.mpr (habsent entry hentry) hid

namespace RecipientChange

variable {change : RecipientChange} {map : EncryptFor} {session : SealedSession}
  {plan : RecipientPlan}

/-- **Who is listed after a change**: who was and is not removed, and who is added. -/
theorem mem_active_apply {now : ℤ} (hnow : now ≠ 0) {signer : JSString}
    (hnodup : Distinct plan.addedTargets)
    (habsent : ∀ target ∈ plan.addedTargets, map.get? target.stableId = none)
    (hkept : ∀ target ∈ plan.addedTargets, isRemovedId plan.removedStableIds target.stableId = false)
    {id : JSString} {entry : EncryptForEntry} :
    (id, entry) ∈ activeEncryptForEntries (plan.apply now signer map) ↔
      (id, entry) ∈ activeEncryptForEntries map ∧ isRemovedId plan.removedStableIds id = false
        ∨ ∃ target ∈ plan.addedTargets,
          id = target.stableId ∧ entry = target.toEntry now signer := by
  have hadds : ∀ other, (applyEncryptForAdds map
        (plan.addedTargets.map fun target => (target.stableId, target.toEntry now signer))
        plan.epoch).get? id = some other ↔ map.get? id = some other
      ∨ ∃ target ∈ plan.addedTargets,
        id = target.stableId ∧ other = target.toEntry now signer := by
    intro other
    rw [← mem_toList_iff, applyEncryptForAdds_of_absent, mem_append, mem_toList_iff]
    · refine or_congr_right ?_
      rw [mem_map]
      refine exists_congr fun target => and_congr_right fun _ => ?_
      rw [Prod.mk.injEq]
      exact and_congr eq_comm eq_comm
    · rw [map_map]
      exact hnodup
    · intro added hadded
      obtain ⟨target, htarget, rfl⟩ := mem_map.mp hadded
      exact habsent target htarget
  rw [mem_activeEncryptForEntries, RecipientPlan.apply, get?_applyEncryptForRemoves]
  constructor
  · rintro ⟨hget, hactive⟩
    obtain ⟨other, hother, rfl⟩ := Option.map_eq_some_iff.mp hget
    by_cases hremoved : (isRemovedId plan.removedStableIds id && other.isActive) = true
    · rw [removedEntry, if_pos hremoved] at hactive
      exact absurd (of_decide_eq_true hactive) hnow
    · rw [removedEntry, if_neg hremoved] at hactive ⊢
      have hnot : isRemovedId plan.removedStableIds id = false := by
        simpa only [hactive, Bool.and_true, Bool.not_eq_true] using hremoved
      rcases (hadds other).mp hother with hold | hnew
      · exact Or.inl ⟨mem_activeEncryptForEntries.mpr ⟨hold, hactive⟩, hnot⟩
      · exact Or.inr hnew
  · intro h
    obtain ⟨hget, hactive, hnot⟩ : (map.get? id = some entry ∨ ∃ target ∈ plan.addedTargets,
          id = target.stableId ∧ entry = target.toEntry now signer)
        ∧ entry.isActive = true ∧ isRemovedId plan.removedStableIds id = false := by
      rcases h with ⟨hmem, hnot⟩ | ⟨target, htarget, rfl, rfl⟩
      · obtain ⟨hget, hactive⟩ := mem_activeEncryptForEntries.mp hmem
        exact ⟨Or.inl hget, hactive, hnot⟩
      · exact ⟨Or.inr ⟨target, htarget, rfl, rfl⟩, rfl, hkept target htarget⟩
    rw [(hadds entry).mpr hget, Option.map_some, removedEntry, if_neg (by rw [hnot]; simp)]
    exact ⟨rfl, hactive⟩

variable {existing : List ResolvedWrapTarget}

/-- **Who remains**: every target that is not removed. -/
theorem mem_remainingTargets_iff {added : List ResolvedWrapTarget}
    {removed : List JSString} (hdistinct : Distinct (existing ++ added))
    : target ∈ (remainingTargets existing added removed).values ↔
      target ∈ existing ++ added ∧ target.stableId ∉ removed
        ∧ ∀ id ∈ removed, goesWith id target = false := by
  have hget : ∀ key, ((existing ++ added).foldl (fun (remaining : LinkedMap JSString
      ResolvedWrapTarget) target => remaining.set target.stableId target) ∅).get? key = some target
        ↔ target ∈ existing ++ added ∧ target.stableId = key := by
    intro key
    have hfound := fun hmem hkey => (LinkedMap.get?_foldl_set ResolvedWrapTarget.stableId id
      (∅ : LinkedMap JSString ResolvedWrapTarget) hdistinct).1 target hmem (hkey : _ = key)
    constructor
    · intro hsome
      exact (get?_foldl_set_stableId hsome).resolve_left nofun
    · rintro ⟨hmem, hkey⟩
      exact hfound hmem hkey
  rw [mem_values_iff, remainingTargets]
  constructor
  · rintro ⟨key, hkey⟩
    rw [get?_foldl_deleteRemoved] at hkey
    split_ifs at hkey with hremoved
    obtain ⟨hsome, hgoes⟩ := Option.filter_eq_some_iff.mp hkey
    obtain ⟨hmem, rfl⟩ := (hget key).mp hsome
    refine ⟨hmem, hremoved, fun id hid => ?_⟩
    rw [Bool.not_eq_true', any_eq_false] at hgoes
    exact Bool.eq_false_iff.mpr (hgoes id hid)
  · rintro ⟨hmem, hremoved, hgoes⟩
    refine ⟨target.stableId, ?_⟩
    rw [get?_foldl_deleteRemoved, if_neg hremoved, (hget _).mpr ⟨hmem, rfl⟩]
    refine Option.filter_eq_some_iff.mpr ⟨rfl, ?_⟩
    rw [Bool.not_eq_true', any_eq_false]
    exact fun id hid => Bool.eq_false_iff.mp (hgoes id hid)

/-- **The targets of who is listed**: one for each stable id that an entry is resolved to. -/
theorem existingTargets_spec
    (h : change.existingTargets map = .ok existing) : Distinct existing
      ∧ ∀ entry ∈ activeEncryptForEntries map,
        ∀ target ∈ change.directory.targetsOf (existingSpec entry.1 entry.2),
          ∃ t ∈ existing, t.stableId = target.stableId := by
  rw [existingTargets] at h
  dsimp only at h
  split_ifs at h with hempty
  · obtain rfl := Except.ok.inj h
    refine ⟨nodup_nil, fun entry hentry => ?_⟩
    rw [List.isEmpty_iff, map_eq_nil_iff] at hempty
    rw [hempty] at hentry
    cases hentry
  · obtain ⟨resolved, hresolved, h⟩ := bind_eq_ok h
    obtain rfl := Except.ok.inj h
    refine ⟨distinct_resolveRecipientSpecs hresolved, fun entry hentry => ?_⟩
    exact fun target => exists_mem_resolveRecipientSpecs hresolved rfl
      (mem_map_of_mem (f := fun (entry : JSString × EncryptForEntry) =>
        existingSpec entry.1 entry.2) hentry)

theorem distinct_addedTargets {resolved : List ResolvedWrapTarget}
    (h : change.IsPlan map session plan resolved existing) :
    Distinct plan.addedTargets := by
  obtain ⟨skipped, hresolve⟩ := h.resolve
  rw [h.added, addedTargets]
  split_ifs
  · exact nodup_nil
  · exact (distinct_resolveRecipientSpecs hresolve).sublist
      (filter_sublist.map _)

end RecipientChange

/-! ## The list and the wraps -/

/-- A target whose stable id is read as it is. -/
structure Plain (unicode : UnicodeTables) (target : ResolvedWrapTarget) : Prop where
  base : baseId target.stableId = target.stableId
  fingerprint : target.keyFingerprint.isEmpty = false
  canonical : target.kind = .user →
    unicode.canonicalizeUsername target.stableId = .ok target.stableId

instance (unicode : UnicodeTables) (target : ResolvedWrapTarget) :
    Decidable (Plain unicode target) :=
  decidable_of_iff (baseId target.stableId = target.stableId
      ∧ target.keyFingerprint.isEmpty = false
      ∧ (target.kind = .user →
        unicode.canonicalizeUsername target.stableId = .ok target.stableId))
    ⟨fun ⟨base, fingerprint, canonical⟩ => ⟨base, fingerprint, canonical⟩,
      fun h => ⟨h.base, h.fingerprint, h.canonical⟩⟩

/-- **A change for which the list and the wraps agree**: whoever stays is resolved to the fingerprint
that is listed, and nobody comes back who was removed. -/
structure Resolves (unicode : UnicodeTables) (change : RecipientChange) (map : EncryptFor)
    (plan : RecipientPlan) : Prop where
  listed : ∀ entry ∈ activeEncryptForEntries map,
    ∀ target ∈ change.directory.targetsOf (existingSpec entry.1 entry.2),
      target.stableId = entry.1
  kept : ∀ entry ∈ activeEncryptForEntries map, entry.1 ∉ plan.removedStableIds →
    (change.directory.targetsOf (existingSpec entry.1 entry.2)).map
        ResolvedWrapTarget.keyFingerprint = entry.2.keyFingerprint.toList
      ∧ ∀ fingerprint ∈ entry.2.keyFingerprint, fingerprint ∉ plan.removedStableIds
  added : ∀ target ∈ plan.addedTargets, Plain unicode target ∧ map.get? target.stableId = none
    ∧ target.keyFingerprint ∉ plan.removedStableIds

instance (unicode : UnicodeTables) (change : RecipientChange) (map : EncryptFor)
    (plan : RecipientPlan) : Decidable (Resolves unicode change map plan) :=
  decidable_of_iff ((∀ entry ∈ activeEncryptForEntries map,
      ∀ target ∈ change.directory.targetsOf (existingSpec entry.1 entry.2),
        target.stableId = entry.1)
    ∧ (∀ entry ∈ activeEncryptForEntries map, entry.1 ∉ plan.removedStableIds →
      (change.directory.targetsOf (existingSpec entry.1 entry.2)).map
          ResolvedWrapTarget.keyFingerprint = entry.2.keyFingerprint.toList
        ∧ ∀ fingerprint ∈ entry.2.keyFingerprint, fingerprint ∉ plan.removedStableIds)
    ∧ ∀ target ∈ plan.addedTargets, Plain unicode target ∧ map.get? target.stableId = none
      ∧ target.keyFingerprint ∉ plan.removedStableIds)
    ⟨fun ⟨listed, kept, added⟩ => ⟨listed, kept, added⟩, fun h => ⟨h.listed, h.kept, h.added⟩⟩

/-- **The wraps are of those who are listed**, each under an id that is read as it is. -/
structure Lists (unicode : UnicodeTables) (map : EncryptFor) (block : EntryRecipients) : Prop where
  base : ∀ entry ∈ activeEncryptForEntries map, baseId entry.1 = entry.1
  fingerprint : ∀ entry ∈ activeEncryptForEntries map,
    ∃ fingerprint, entry.2.keyFingerprint = some fingerprint ∧ fingerprint.isEmpty = false
  canonical : ∀ entry ∈ activeEncryptForEntries map, entry.2.kind = .user →
    unicode.canonicalizeUsername entry.1 = .ok entry.1
  wraps : ∀ fingerprint, block.IsWrappedFor fingerprint ↔
    ∃ entry ∈ activeEncryptForEntries map, entry.2.keyFingerprint = some fingerprint

namespace Lists

variable {unicode : UnicodeTables} {map : EncryptFor} {block : EntryRecipients}

/-- **A change keeps the list and the wraps together.** -/
theorem change (h : Lists unicode map block) {change : RecipientChange} {session : SealedSession}
    {plan : RecipientPlan} (hplan : change.plan map session = .ok plan)
    (hresolves : Resolves unicode change map plan) {now : ℤ} (hnow : now ≠ 0)
    (signer : JSString) : Lists unicode (plan.apply now signer map)
      (sealToTargets plan.generations plan.remaining plan.epoch) := by
  obtain ⟨resolved, existing, hspec⟩ := plan_spec hplan
  obtain ⟨hdistinct, hcomplete⟩ := existingTargets_spec hspec.existingTargets
  have hlisted : ∀ id ∈ plan.removedStableIds, Listed id map := fun id hid =>
    mem_removedStableIds (hspec.removed ▸ hid)
  have hunlisted : ∀ target ∈ plan.addedTargets, ¬ Listed target.stableId map :=
    fun target htarget => (mem_addedTargets (hspec.added ▸ htarget)).2.2
  have hexisting : ∀ target ∈ existing, ∃ entry ∈ activeEncryptForEntries map,
      target ∈ change.directory.targetsOf (existingSpec entry.1 entry.2)
        ∧ target.stableId = entry.1 := by
    intro target htarget
    obtain ⟨id, entry, hentry, hmem⟩ :=
      mem_existingTargets hspec.existingTargets htarget
    exact ⟨(id, entry), hentry, hmem, hresolves.listed _ hentry target hmem⟩
  have hadded : Distinct plan.addedTargets :=
    distinct_addedTargets hspec
  have hboth : Distinct (existing ++ plan.addedTargets) := by
    rw [Distinct, map_append]
    refine nodup_append.mpr ⟨hdistinct, hadded, ?_⟩
    rintro id hid other hother rfl
    obtain ⟨target, htarget, rfl⟩ := mem_map.mp hid
    obtain ⟨target', htarget', hsame⟩ := mem_map.mp hother
    obtain ⟨entry, hentry, -, hstable⟩ := hexisting target htarget
    refine hunlisted target' htarget' ⟨entry, hentry, ?_⟩
    rw [h.base entry hentry, hsame, hstable]
  have hstay : ∀ target ∈ plan.addedTargets, target.stableId ∉ plan.removedStableIds :=
    fun target htarget hremoved => hunlisted target htarget (hlisted _ hremoved)
  have hid : ∀ id, baseId id = id →
      (isRemovedId plan.removedStableIds id = false ↔ id ∉ plan.removedStableIds) := by
    intro id hbase
    rw [isRemovedId, hbase, Bool.or_self, contains_eq_mem, decide_eq_false_iff_not]
  have hactive : ∀ id entry, (id, entry) ∈ activeEncryptForEntries (plan.apply now signer map) ↔
      (id, entry) ∈ activeEncryptForEntries map ∧ id ∉ plan.removedStableIds
        ∨ ∃ target ∈ plan.addedTargets,
          id = target.stableId ∧ entry = target.toEntry now signer := by
    intro id entry
    rw [mem_active_apply hnow hadded
      (fun target htarget => (hresolves.added target htarget).2.1) fun target htarget =>
        (hid _ (hresolves.added target htarget).1.base).mpr (hstay target htarget)]
    refine or_congr_left (and_congr_right fun hentry => hid id (h.base (id, entry) hentry))
  have hentries : ∀ entry ∈ activeEncryptForEntries (plan.apply now signer map),
      baseId entry.1 = entry.1
        ∧ (∃ fingerprint, entry.2.keyFingerprint = some fingerprint ∧ fingerprint.isEmpty = false)
        ∧ (entry.2.kind = .user → unicode.canonicalizeUsername entry.1 = .ok entry.1) := by
    rintro ⟨id, entry⟩ hentry
    rcases (hactive id entry).mp hentry with ⟨hold, -⟩ | ⟨target, htarget, rfl, rfl⟩
    · exact ⟨h.base _ hold, h.fingerprint _ hold, h.canonical _ hold⟩
    · have hplain := (hresolves.added target htarget).1
      exact ⟨hplain.base, ⟨_, rfl, hplain.fingerprint⟩, hplain.canonical⟩
  refine ⟨fun entry hentry => (hentries entry hentry).1, fun entry hentry => (hentries entry hentry).2.1,
    fun entry hentry => (hentries entry hentry).2.2, fun fingerprint => ?_⟩
  rw [isWrappedFor_sealToTargets, hspec.remaining]
  constructor
  · rintro ⟨target, htarget, rfl⟩
    obtain ⟨hmem, hremoved, -⟩ := (mem_remainingTargets_iff hboth).mp htarget
    rcases mem_append.mp hmem with hold | hnew
    · obtain ⟨entry, hentry, hresolved, hstable⟩ := hexisting target hold
      rw [hstable] at hremoved
      refine ⟨entry, (hactive _ _).mpr (Or.inl ⟨hentry, hremoved⟩), ?_⟩
      have hsame := mem_map_of_mem (f := ResolvedWrapTarget.keyFingerprint) hresolved
      rw [(hresolves.kept entry hentry hremoved).1] at hsame
      exact Option.mem_toList.mp hsame
    · exact ⟨(target.stableId, target.toEntry now signer),
        (hactive _ _).mpr (Or.inr ⟨target, hnew, rfl, rfl⟩), rfl⟩
  · rintro ⟨⟨id, entry⟩, hentry, hfingerprint⟩
    have hremains : ∀ target, target ∈ existing ++ plan.addedTargets →
        target.id = target.stableId → target.stableId ∉ plan.removedStableIds →
        target.keyFingerprint ∉ plan.removedStableIds →
        target ∈ (remainingTargets existing plan.addedTargets
          plan.removedStableIds).values := by
      intro target hmem hsame hstable hapart
      refine (mem_remainingTargets_iff hboth).mpr ⟨hmem, hstable, fun id hid => ?_⟩
      have hne : target.stableId ≠ id := fun heq => hstable (heq ▸ hid)
      have hne' : target.keyFingerprint ≠ id := fun heq => hapart (heq ▸ hid)
      simp [goesWith, hsame, hne, hne']
    rcases (hactive id entry).mp hentry with ⟨hold, hremoved⟩ | ⟨target, htarget, rfl, rfl⟩
    · obtain ⟨hsame, hapart⟩ := hresolves.kept _ hold hremoved
      dsimp only at hfingerprint hsame hapart
      rw [hfingerprint] at hsame hapart
      obtain ⟨target, htarget, rfl⟩ := map_eq_singleton_iff.mp hsame
      have hmem : target ∈ change.directory.targetsOf (existingSpec id entry) := by
        rw [htarget]
        exact mem_singleton_self target
      have hstable := hresolves.listed _ hold target hmem
      obtain ⟨found, hfound, hfoundId⟩ := hcomplete _ hold target hmem
      obtain ⟨⟨id', entry'⟩, hentry', hmem', hstable'⟩ := hexisting found hfound
      obtain rfl : id' = id := hstable'.symm.trans (hfoundId.trans hstable)
      obtain rfl : entry' = entry := Option.some.inj
        ((mem_activeEncryptForEntries.mp hentry').1.symm.trans
          (mem_activeEncryptForEntries.mp hold).1)
      rw [htarget, mem_singleton] at hmem'
      subst hmem'
      exact ⟨found, hremains found (mem_append_left _ hfound)
        (id_eq_stableId hmem) (hstable ▸ hremoved) (hapart _ rfl), rfl⟩
    · have hmem : ∃ spec, target ∈ change.directory.targetsOf spec := by
        obtain ⟨skipped, hresolve⟩ := hspec.resolve
        obtain ⟨spec, -, hmem⟩ := mem_resolved hresolve
          (mem_addedTargets (hspec.added ▸ htarget)).2.1
        exact ⟨spec, hmem⟩
      obtain ⟨spec, hmem⟩ := hmem
      refine ⟨target, hremains target (mem_append_right _ htarget)
        (id_eq_stableId hmem) (hstay target htarget)
        (hresolves.added target htarget).2.2, ?_⟩
      exact Option.some.inj hfingerprint

end Lists

/-! ## Who is asked for -/

theorem allM_eq_true_iff {α ε : Type*} {p : α → Except ε Bool} {l : List α} :
    l.allM p = .ok true ↔ ∀ a ∈ l, p a = .ok true := by
  induction l with
  | nil => exact iff_of_true rfl nofun
  | cons a l ih =>
    rw [forall_mem_cons, ← ih, List.allM]
    cases hfirst : p a with
    | error e => exact iff_of_false nofun fun hand => nomatch hand.1
    | ok b =>
      cases b with
      | true => exact ⟨fun h => ⟨rfl, h⟩, fun hand => hand.2⟩
      | false => exact iff_of_false nofun fun hand => nomatch hand.1

/-- A search whose tests do not fail. -/
theorem anyM_eq_ok {α ε : Type*} {p : α → Except ε Bool} {q : α → Bool} {l : List α}
    (h : ∀ a ∈ l, p a = .ok (q a)) : l.anyM p = .ok (l.any q) := by
  induction l with
  | nil => rfl
  | cons a l ih =>
    obtain ⟨hfirst, hrest⟩ := forall_mem_cons.mp h
    rw [List.anyM, hfirst, any_cons]
    cases q a with
    | true => rfl
    | false => exact ih hrest

/-- A user has an active entry. -/
def ListsUser (key : JSString) (map : EncryptFor) : Prop :=
  ∃ entry ∈ activeEncryptForEntries map, entry.2.kind = .user ∧ baseId entry.1 = key

instance (key : JSString) (map : EncryptFor) : Decidable (ListsUser key map) :=
  inferInstanceAs (Decidable (∃ entry ∈ activeEncryptForEntries map, _))

/-- The users are some, and each of them has an active entry. -/
def ListsUsers (unicode : UnicodeTables) (map : EncryptFor) (users : List JSString) : Prop :=
  users ≠ [] ∧ ∀ user ∈ users, ∃ key, unicode.canonicalizeUsername user = .ok key
    ∧ ListsUser key map

/-- **The list, the wraps and the answers are of the same people.** -/
def Agrees (unicode : UnicodeTables) (map : EncryptFor) (block : EntryRecipients) : Prop :=
  (∀ fingerprint, block.IsWrappedFor fingerprint ↔
    ∃ entry ∈ activeEncryptForEntries map, entry.2.keyFingerprint = some fingerprint)
  ∧ ∀ users, isPayloadEncryptedFor unicode map (some block) users = .ok true ↔
    ListsUsers unicode map users

/-- **Who is listed is a recipient, and a sealed one.** -/
theorem Lists.mem_resolveRecipientsFromPayload {unicode : UnicodeTables} {map : EncryptFor}
    {block : EntryRecipients} (h : Lists unicode map block) {recipient : ResolvedRecipient}
    (hrecipient : recipient ∈ resolveRecipientsFromPayload map (some block)) :
    ∃ entry ∈ activeEncryptForEntries map, recipient.kind = entry.2.kind
      ∧ recipient.isSealed = true ∧ (entry.2.kind = .user → recipient.id = entry.1) := by
  obtain ⟨⟨id, entry⟩, hentry, rfl⟩ := mem_map.mp hrecipient
  refine ⟨(id, entry), hentry, rfl, ?_, fun huser => ?_⟩
  · obtain ⟨fingerprint, hsome, hempty⟩ := h.fingerprint _ hentry
    obtain ⟨wrap, hwrap, hsame⟩ := (h.wraps fingerprint).mpr ⟨_, hentry, hsome⟩
    dsimp only at hsome ⊢
    rw [hsome, Option.any_some, hempty, Bool.not_false, Bool.true_and, any_eq_true]
    exact ⟨wrap, hwrap, decide_eq_true hsame⟩
  · exact if_neg (by rw [huser]; decide)

theorem Lists.agrees {unicode : UnicodeTables} {map : EncryptFor} {block : EntryRecipients}
    (h : Lists unicode map block) : Agrees unicode map block := by
  refine ⟨h.wraps, fun users => ?_⟩
  rw [isPayloadEncryptedFor, ListsUsers]
  by_cases husers : users = []
  · subst husers
    exact iff_of_false nofun fun hand => hand.1 rfl
  rw [if_neg (mt List.isEmpty_iff.mp husers), allM_eq_true_iff, and_iff_right husers]
  refine forall₂_congr fun user _ => ?_
  cases hkey : unicode.canonicalizeUsername user with
  | error message => exact iff_of_false nofun fun ⟨_, hsome, _⟩ => nomatch hsome
  | ok key =>
    simp only [bind, Except.bind]
    rw [anyM_eq_ok (q := fun recipient => decide (recipient.kind = .user)
      && decide (recipient.id = key)) fun recipient hrecipient => ?_]
    · rw [Except.ok.injEq, any_eq_true]
      constructor
      · rintro ⟨recipient, hrecipient, hsame⟩
        obtain ⟨entry, hentry, hkind, -, hid⟩ := h.mem_resolveRecipientsFromPayload hrecipient
        obtain ⟨huser, hkeyId⟩ := Bool.and_eq_true_iff.mp hsame
        have huser' := hkind.symm.trans (of_decide_eq_true huser)
        refine ⟨key, rfl, entry, hentry, huser', ?_⟩
        rw [h.base entry hentry, ← hid huser', of_decide_eq_true hkeyId]
      · rintro ⟨_, ⟨⟩, ⟨id, entry⟩, hentry, huser, hbase⟩
        refine ⟨_, mem_map_of_mem hentry, ?_⟩
        rw [h.base _ hentry] at hbase
        dsimp only at huser hbase ⊢
        simp [huser, hbase]
    · obtain ⟨entry, hentry, hkind, hsealed, hid⟩ := h.mem_resolveRecipientsFromPayload hrecipient
      rw [hsealed, Bool.and_true]
      by_cases huser : recipient.kind = .user
      · rw [hkind] at huser
        rw [decide_eq_true (hkind.trans huser), hid huser, h.canonical entry hentry huser]
        rfl
      · rw [decide_eq_false huser]
        rfl

/-! ## Runs -/

section

variable {S : Type} [DecidableEq S] {unicode : UnicodeTables}

/-- The call has stored its entry. -/
def SealedState.Succeeds (state : SealedState S) (op : SealedOp S) : Prop :=
  state.entries.length < (state.step op).entries.length

/-- **What a successful call leaves**: the planned list, and an entry with the planned block. -/
theorem SealedState.step_of_succeeds {state : SealedState S} {op : SealedOp S}
    {change : RecipientChange} (haction : op.action = .mutateRecipients change)
    (hsucceeds : state.Succeeds op) : ∃ plan,
      change.plan state.encryptFor (state.opened op) = .ok plan
        ∧ (state.step op).encryptFor = plan.apply op.write.now change.signer state.encryptFor
        ∧ newestBlock (state.step op).entries = newestRecipientBlock
            ((state.entries.map fun entry => (entry.recipients, entry.createdAt))
              ++ [(some (sealToTargets plan.generations plan.remaining plan.epoch),
                (op.write.now : ℤ))]) := by
  rw [Succeeds, step, haction] at hsucceeds
  rw [step, haction]
  dsimp only at hsucceeds ⊢
  cases hplan : change.plan state.encryptFor (state.opened op) with
  | error message =>
    rw [hplan] at hsucceeds
    exact absurd hsucceeds (lt_irrefl _)
  | ok plan =>
    rw [hplan] at hsucceeds
    refine ⟨plan, rfl, ?_⟩
    dsimp only at hsucceeds ⊢
    by_cases houtdated : (state.opened op).outdated = true
    · rw [if_pos houtdated] at hsucceeds
      exact absurd hsucceeds (lt_irrefl _)
    rw [if_neg houtdated] at hsucceeds ⊢
    rw [persist, persistEntry] at hsucceeds ⊢
    dsimp only at hsucceeds ⊢
    cases hkey : encryptPayload (ingestSealedFromEntries op.write.keys (some plan.generations)
        state.entries) with
    | none =>
      rw [hkey] at hsucceeds
      exact absurd hsucceeds (by simp)
    | some key =>
      rw [hkey] at hsucceeds
      cases hstored : op.write.stored with
      | false =>
        rw [hstored] at hsucceeds
        exact absurd hsucceeds (by simp)
      | true => exact ⟨rfl, congrArg newestRecipientBlock map_append⟩

/-- Calls that change the recipients, one after the other, each of which succeeds. -/
def Calls (allowed : SealedState S → SealedOp S → Prop) : SealedState S → List (SealedOp S) → Prop
  | _, [] => True
  | state, op :: ops => (∃ change, op.action = .mutateRecipients change) ∧ state.Succeeds op
    ∧ allowed state op ∧ Calls allowed (state.step op) ops

/-- **The condition of a call**: its block is the newest, and whoever stays is resolved to what is
listed. -/
structure Keeps (unicode : UnicodeTables) (state : SealedState S) (op : SealedOp S) : Prop where
  publishes : state.Publishes op
  resolves : ∀ change plan, op.action = .mutateRecipients change →
    change.plan state.encryptFor (state.opened op) = .ok plan →
      Resolves unicode change state.encryptFor plan

/-- The newest block is of those who are listed. -/
def ListsNewest (unicode : UnicodeTables) (state : SealedState S) : Prop :=
  ∃ newest, newestBlock state.entries = some newest ∧ Lists unicode state.encryptFor newest

theorem ListsNewest.step {state : SealedState S} (h : ListsNewest unicode state) {op : SealedOp S}
    (haction : ∃ change, op.action = .mutateRecipients change) (hsucceeds : state.Succeeds op)
    (hkeeps : Keeps unicode state op) : ListsNewest unicode (state.step op) := by
  obtain ⟨newest, hnewest, hlists⟩ := h
  obtain ⟨change, haction⟩ := haction
  obtain ⟨plan, hplan, hencryptFor, hblock⟩ := step_of_succeeds haction hsucceeds
  rw [((state.publishes_iff haction hplan).mp hkeeps.publishes).2] at hblock
  refine ⟨_, hblock, ?_⟩
  rw [hencryptFor]
  exact hlists.change hplan (hkeeps.resolves change plan haction hplan) op.write.now.property.ne' _

theorem listsNewest_create {session : S} {directory : RecipientDirectory}
    {specs : List RecipientSpec} {options : RecipientOptions} {dek : DocKey} {now : Timestamp}
    {signer : JSString} {created : SealedState S}
    (hcreated : create session directory specs options dek now signer = .ok created)
    (hplain : ∀ spec ∈ if options.includesSelf then directory.withSelf specs else specs,
      ∀ target ∈ directory.targetsOf spec, Plain unicode target) : ListsNewest unicode created := by
  rw [create] at hcreated
  obtain ⟨resolved, hresolved, hcreated⟩ := bind_eq_ok hcreated
  obtain rfl := Except.ok.inj hcreated
  have hdistinct := distinct_resolveRecipientSpecs hresolved
  have htargets := (resolveRecipientSpecs_spec hresolved).2
  have hactive : ∀ id entry, (id, entry) ∈ activeEncryptForEntries (ofList
      (resolved.targets.map fun target => (target.stableId, target.toEntry now signer))) ↔
        ∃ target ∈ resolved.targets, id = target.stableId ∧ entry = target.toEntry now signer := by
    intro id entry
    rw [mem_activeEncryptForEntries, get?_ofList (by rw [map_map]; exact hdistinct), mem_map]
    constructor
    · rintro ⟨⟨target, htarget, hsame⟩, -⟩
      obtain ⟨rfl, rfl⟩ := Prod.mk.inj hsame
      exact ⟨target, htarget, rfl, rfl⟩
    · rintro ⟨target, htarget, rfl, rfl⟩
      exact ⟨⟨target, htarget, rfl⟩, rfl⟩
  have hentry : ∀ target ∈ resolved.targets, Plain unicode target := by
    intro target htarget
    obtain ⟨spec, hspec, hmem⟩ :=
      mem_targets_resolveRecipientSpecs hresolved htarget
    exact hplain spec hspec target hmem
  have hblock : sealToTargets [dek] resolved.targets 1 ∈ blocksOf
      [⟨some (sealToTargets [dek] resolved.targets 1), now, dek, true⟩] :=
    mem_singleton_self _
  obtain ⟨newest, hnewest⟩ := exists_newestBlock hblock fun hnil =>
    htargets (map_eq_nil_iff.mp hnil)
  have hsame : newest = sealToTargets [dek] resolved.targets 1 :=
    mem_singleton.mp (newestBlock_spec hnewest).1
  refine ⟨newest, hnewest, ?_, ?_, ?_, fun fingerprint => ?_⟩
  · rintro ⟨id, entry⟩ hmem
    obtain ⟨target, htarget, rfl, rfl⟩ := (hactive id entry).mp hmem
    exact (hentry target htarget).base
  · rintro ⟨id, entry⟩ hmem
    obtain ⟨target, htarget, rfl, rfl⟩ := (hactive id entry).mp hmem
    exact ⟨_, rfl, (hentry target htarget).fingerprint⟩
  · rintro ⟨id, entry⟩ hmem
    obtain ⟨target, htarget, rfl, rfl⟩ := (hactive id entry).mp hmem
    exact (hentry target htarget).canonical
  · rw [hsame, isWrappedFor_sealToTargets]
    constructor
    · rintro ⟨target, htarget, rfl⟩
      exact ⟨(target.stableId, target.toEntry now signer),
        (hactive _ _).mpr ⟨target, htarget, rfl, rfl⟩, rfl⟩
    · rintro ⟨⟨id, entry⟩, hmem, hfingerprint⟩
      obtain ⟨target, htarget, rfl, rfl⟩ := (hactive id entry).mp hmem
      exact ⟨target, htarget, Option.some.inj hfingerprint⟩

/-- **Who is listed has a wrap, and who has a wrap is listed**, after every successful call, as long
as whoever stays is resolved to what is listed and nobody who was removed comes back. -/
theorem recipients_wrapped {session : S} {directory : RecipientDirectory}
    {specs : List RecipientSpec} {options : RecipientOptions} {dek : DocKey} {now : Timestamp}
    {signer : JSString} {created : SealedState S}
    (hcreated : create session directory specs options dek now signer = .ok created)
    (hplain : ∀ spec ∈ if options.includesSelf then directory.withSelf specs else specs,
      ∀ target ∈ directory.targetsOf spec, Plain unicode target)
    {ops : List (SealedOp S)} (hcalls : Calls (Keeps unicode) created ops) :
    ∃ newest, newestBlock (created.run ops).entries = some newest
      ∧ Agrees unicode (created.run ops).encryptFor newest := by
  have hrun : ∀ state : SealedState S, ListsNewest unicode state → Calls (Keeps unicode) state ops →
      ListsNewest unicode (state.run ops) := by
    clear hcalls
    induction ops with
    | nil => exact fun state h _ => h
    | cons op ops ih =>
      rintro state h ⟨haction, hsucceeds, hkeeps, hrest⟩
      exact ih _ (h.step haction hsucceeds hkeeps) hrest
  obtain ⟨newest, hnewest, hlists⟩ := hrun created (listsNewest_create hcreated hplain) hcalls
  exact ⟨newest, hnewest, hlists.agrees⟩

end

/-! ### Somebody who comes back -/

theorem forall_ok {ε α : Type*} {e : Except ε α} {P : α → Prop} (h : ∀ a ∈ e.toOption, P a) :
    ∀ a, e = .ok a → P a := by
  rintro a rfl
  exact h a rfl

/-- The creator adds `b` again. -/
def addB : SealedOp ℕ where
  session := 0
  opening := .cached
  write := { keys := ["CN=a/O=x"], now := sampleTime, stored := true }
  action := .mutateRecipients {
    mode := .add
    specs := [.user "b/x"]
    options := {}
    directory := everybody
    nextDek := docKey 3
    signer := "a" }

/-- The creator removes `b`. -/
theorem recipients_wrapped_removeB : ∃ newest,
    newestBlock (sharedDocument.run [removeB]).entries = some newest
      ∧ Agrees asciiTables (sharedDocument.run [removeB]).encryptFor newest := by
  refine recipients_wrapped create_sharedDocument (by decide +kernel)
    ⟨⟨_, rfl⟩, ?_, ⟨by decide +kernel, ?_⟩, trivial⟩
  · rw [Succeeds]
    decide +kernel
  · rintro change plan ⟨⟩ hplan
    refine forall_ok ?_ plan hplan
    decide +kernel

/-- **Who is added again is listed, and is not found by the name.** -/
theorem not_recipients_wrapped :
    ¬ ∀ (session : ℕ) (directory : RecipientDirectory) (specs : List RecipientSpec)
        (options : RecipientOptions) (dek : DocKey) (now : Timestamp) (signer : JSString)
        (created : SealedState ℕ),
      create session directory specs options dek now signer = .ok created →
      ∀ ops : List (SealedOp ℕ), Calls (fun _ _ => True) created ops →
        ∃ newest, newestBlock (created.run ops).entries = some newest
          ∧ Agrees directory.unicode (created.run ops).encryptFor newest := by
  intro h
  obtain ⟨newest, hnewest, -, hasked⟩ := h 0 everybody _ _ _ _ _ _ create_sharedDocument
    [removeB, addB] ⟨⟨_, rfl⟩, by rw [Succeeds]; decide +kernel, trivial, ⟨_, rfl⟩,
      by rw [Succeeds]; decide +kernel, trivial, trivial⟩
  have hlisted : ListsUser "CN=b/O=x" (sharedDocument.run [removeB, addB]).encryptFor := by
    decide +kernel
  have hkey : asciiTables.canonicalizeUsername "b/x" = .ok "CN=b/O=x" := by decide +kernel
  have hnot : ∀ newest ∈ newestBlock (sharedDocument.run [removeB, addB]).entries,
      isPayloadEncryptedFor asciiTables (sharedDocument.run [removeB, addB]).encryptFor
        (some newest) ["b/x"] ≠ .ok true := by decide +kernel
  refine hnot newest hnewest ((hasked ["b/x"]).mpr ⟨cons_ne_nil _ _, ?_⟩)
  intro user huser
  rw [mem_singleton.mp huser]
  exact ⟨_, hkey, hlisted⟩

end MindooDB.Sealed
