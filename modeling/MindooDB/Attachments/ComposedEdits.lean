import MindooDB.Attachments.PendingEdits

/-!
# Attachments/ComposedEdits — edits of one `changeDoc` and edits one by one

What the callback collects belongs to the attachments that are there (`Collected`), so the list
after a `changeDoc` is that of these attachments, each with what was collected for it
(`changeAttachments_eq`); one by one, each has all of its edits (`changeOneByOne_eq`).  Of several
texts of an attachment the callback keeps the last one, and both agree on every attachment that was
not added and appended to by the same callback (`edits_compose`).
-/

namespace MindooDB

open LinkedMap List PendingAttachments

variable {now : ℤ} {attachments : List AttachmentReference} {pending : PendingAttachments}
  {tracked : List TrackedAttachment} {known : List JSString}

/-! ## Lists of references -/

variable {l : List AttachmentReference} {a : AttachmentReference} {t : TrackedAttachment}
  {call : AttachmentCall}

variable {attachmentId : JSString}

theorem hasAttachment_iff :
    hasAttachment l attachmentId = true ↔ ∃ a ∈ l, a.attachmentId = attachmentId := by
  rw [hasAttachment, any_eq_true]
  simp only [decide_eq_true_eq]

theorem findAttachment_spec (h : findAttachment l attachmentId = some a) :
    a ∈ l ∧ a.attachmentId = attachmentId := by
  unfold findAttachment at h
  have hid := find?_some h
  exact ⟨mem_of_find?_eq_some h, of_decide_eq_true hid⟩

theorem find?_append_eq_some {l' : List AttachmentReference}
    (h : ((l ++ l').map AttachmentReference.attachmentId).Nodup) (ha : a ∈ l ++ l') :
    (findAttachment l a.attachmentId).or (findAttachment l' a.attachmentId) = some a := by
  unfold findAttachment
  rw [← find?_append]
  generalize l ++ l' = all at h ha
  induction all with
  | nil => exact nomatch ha
  | cons b all ih =>
    obtain ⟨hb, hall⟩ := nodup_cons.mp h
    rcases mem_cons.mp ha with rfl | ha
    · exact find?_cons_of_pos (decide_eq_true rfl)
    · have hne : b.attachmentId ≠ a.attachmentId := fun heq =>
        hb (mem_map.mpr ⟨a, ha, heq.symm⟩)
      rw [find?_cons_of_neg (by simpa using hne)]
      exact ih hall ha

/-! ## What is collected -/

/-- What the appends of an attachment come to. -/
def pendingAppend (ref : AttachmentReference) (appends : List StoredChunks) :
    Option PendingAppend :=
  appends.foldl (fun prevAppend stored => some (nextAppend ref prevAppend stored)) none

/-- **What was collected for the attachments that are there.** -/
structure Collected (attachments : List AttachmentReference) (pending : PendingAttachments)
    (tracked : List TrackedAttachment) (known : List JSString) : Prop where
  refs : tracked.map (fun t => (t.ref, t.isNew))
    = (attachments.filter fun a => a.attachmentId ∉ pending.removals).map (·, false)
      ++ pending.additions.map (·, true)
  nodup : ((attachments ++ pending.additions).map AttachmentReference.attachmentId).Nodup
  knows : ∀ a ∈ attachments ++ pending.additions, a.attachmentId ∈ known
  appends : ∀ t ∈ tracked, pending.appends.get? t.id = pendingAppend t.ref t.appends
  texts : ∀ t ∈ tracked, pending.textUpdates.get? t.id = t.texts.getLast?
  unknown : ∀ attachmentId, attachmentId ∉ known → pending.appends.get? attachmentId = none
    ∧ pending.textUpdates.get? attachmentId = none

namespace Collected

theorem mem_of_mem (h : Collected attachments pending tracked known)
    (ht : t ∈ tracked) : t.ref ∈ attachments ++ pending.additions := by
  have hpair : (t.ref, t.isNew) ∈ tracked.map fun t => (t.ref, t.isNew) :=
    mem_map.mpr ⟨t, ht, rfl⟩
  rw [h.refs] at hpair
  rcases mem_append.mp hpair with hold | hnew
  · obtain ⟨a, ha, heq⟩ := mem_map.mp hold
    rw [← (Prod.mk.inj heq).1]
    exact mem_append_left _ (mem_filter.mp ha).1
  · obtain ⟨a, ha, heq⟩ := mem_map.mp hnew
    rw [← (Prod.mk.inj heq).1]
    exact mem_append_right _ ha

/-- **An attachment is there** if it is new, or in the document and not removed. -/
theorem exists_iff (h : Collected attachments pending tracked known) (attachmentId : JSString) :
    (∃ t ∈ tracked, t.id = attachmentId) ↔
      ((hasAttachment attachments attachmentId && attachmentId ∉ pending.removals)
        || hasAttachment pending.additions attachmentId) = true := by
  have hpairs : (∃ t ∈ tracked, t.id = attachmentId) ↔
      ∃ p ∈ tracked.map (fun t => (t.ref, t.isNew)), p.1.attachmentId = attachmentId := by
    constructor
    · rintro ⟨t, ht, hid⟩
      exact ⟨_, mem_map.mpr ⟨t, ht, rfl⟩, hid⟩
    · rintro ⟨p, hp, hid⟩
      obtain ⟨t, ht, rfl⟩ := mem_map.mp hp
      exact ⟨t, ht, hid⟩
  rw [hpairs, h.refs, Bool.or_eq_true, Bool.and_eq_true, hasAttachment_iff, hasAttachment_iff,
    decide_eq_true_eq]
  constructor
  · rintro ⟨p, hp, hid⟩
    rcases mem_append.mp hp with hold | hnew
    · obtain ⟨a, ha, rfl⟩ := mem_map.mp hold
      obtain ⟨hmem, hkept⟩ := mem_filter.mp ha
      exact .inl ⟨⟨a, hmem, hid⟩, hid ▸ of_decide_eq_true hkept⟩
    · obtain ⟨a, ha, rfl⟩ := mem_map.mp hnew
      exact .inr ⟨a, ha, hid⟩
  · rintro (⟨⟨a, ha, hid⟩, hkept⟩ | ⟨a, ha, hid⟩)
    · refine ⟨(a, false), mem_append_left _ (mem_map.mpr ⟨a, ?_, rfl⟩), hid⟩
      exact mem_filter.mpr ⟨ha, decide_eq_true (hid.symm ▸ hkept)⟩
    · exact ⟨(a, true), mem_append_right _ (mem_map.mpr ⟨a, ha, rfl⟩), hid⟩

end Collected

/-- A call that removes nothing and adds nothing. -/
theorem trackCall_of_record (hadded : call.added? = none)
    (hsurvives : ∀ t : TrackedAttachment, t.survives call = true) :
    trackCall tracked call = tracked.map (·.record call) := by
  rw [trackCall, hadded, filter_eq_self.mpr fun t _ => hsurvives t]
  exact append_nil _

theorem record_ref (t : TrackedAttachment) (call : AttachmentCall) :
    (t.record call).ref = t.ref ∧ (t.record call).isNew = t.isNew := by
  unfold TrackedAttachment.record
  split
  · split_ifs <;> exact ⟨rfl, rfl⟩
  · split_ifs <;> exact ⟨rfl, rfl⟩
  · exact ⟨rfl, rfl⟩

theorem map_pair_record (call : AttachmentCall) :
    (tracked.map (·.record call)).map (fun t => (t.ref, t.isNew))
      = tracked.map fun t => (t.ref, t.isNew) := by
  rw [map_map]
  refine map_congr_left fun t _ => ?_
  rw [Function.comp_apply, (record_ref t call).1, (record_ref t call).2]

/-- **Adding.** -/
theorem Collected.add (h : Collected attachments pending tracked known) {ref : AttachmentReference}
    (hfresh : ref.attachmentId ∉ known) :
    Collected attachments { pending with additions := pending.additions ++ [ref] }
      (tracked ++ [{ ref, isNew := true }]) (known ++ [ref.attachmentId]) := by
  have hmem {t : TrackedAttachment} (ht : t ∈ tracked ++ [{ ref, isNew := true }]) :
      t ∈ tracked ∨ t = { ref, isNew := true } :=
    (mem_append.mp ht).imp id mem_singleton.mp
  refine ⟨?_, ?_, fun a ha => ?_, fun t ht => ?_, fun t ht => ?_, fun attachmentId hunknown => ?_⟩
  · rw [map_append, h.refs, map_append, append_assoc]
    rfl
  · rw [← append_assoc, map_append, nodup_append]
    refine ⟨h.nodup, nodup_singleton _, fun x hx y hy heq => ?_⟩
    obtain ⟨a, ha, rfl⟩ := mem_map.mp hx
    rw [map_singleton, mem_singleton] at hy
    exact hfresh (hy ▸ heq ▸ h.knows a ha)
  · rw [← append_assoc] at ha
    rcases mem_append.mp ha with ha | ha
    · exact mem_append_left _ (h.knows a ha)
    · rw [mem_singleton.mp ha]
      exact mem_append_right _ mem_cons_self
  · rcases hmem ht with ht | rfl
    · exact h.appends t ht
    · exact (h.unknown _ hfresh).1
  · rcases hmem ht with ht | rfl
    · exact h.texts t ht
    · exact (h.unknown _ hfresh).2
  · exact h.unknown _ fun hmem => hunknown (mem_append_left _ hmem)

/-- **Removing.** -/
theorem Collected.remove (h : Collected attachments pending tracked known)
    (attachmentId : JSString) :
    Collected attachments (pending.removeAttachment attachments attachmentId)
      (tracked.filter fun t => t.id ≠ attachmentId) known := by
  have hpairs : (tracked.filter fun t => t.id ≠ attachmentId).map (fun t => (t.ref, t.isNew))
      = (tracked.map fun t => (t.ref, t.isNew)).filter
        fun p => p.1.attachmentId ≠ attachmentId := by
    rw [filter_map]
    rfl
  have hold {l : List AttachmentReference} {new : Bool} :
      (l.map (·, new)).filter (fun p => p.1.attachmentId ≠ attachmentId)
        = (l.filter fun a => a.attachmentId ≠ attachmentId).map (·, new) := by
    rw [filter_map]
    rfl
  have habsent {l : List AttachmentReference} (hnot : hasAttachment l attachmentId = false) :
      l.filter (fun a => a.attachmentId ≠ attachmentId) = l :=
    filter_eq_self.mpr fun a ha => decide_eq_true fun heq =>
      absurd (hasAttachment_iff.mpr ⟨a, ha, heq⟩) (Bool.eq_false_iff.mp hnot)
  have hnodup := h.nodup
  rw [map_append, nodup_append] at hnodup
  obtain ⟨hattachments, hadditions, hdisjoint⟩ := hnodup
  unfold PendingAttachments.removeAttachment
  split_ifs with hnew hexists hremoved
  · -- added before by the callback: it is not in the document
    have hnot : hasAttachment attachments attachmentId = false := by
      rw [Bool.eq_false_iff]
      intro hhas
      obtain ⟨a, ha, haid⟩ := hasAttachment_iff.mp hhas
      obtain ⟨b, hb, hbid⟩ := hasAttachment_iff.mp hnew
      exact hdisjoint _ (mem_map.mpr ⟨a, ha, rfl⟩) _ (mem_map.mpr ⟨b, hb, rfl⟩)
        (haid.trans hbid.symm)
    have herase := eraseFirst_eq_filter hadditions attachmentId
    refine ⟨?_, ?_, fun a ha => ?_, fun t ht => ?_, fun t ht => ?_, h.unknown⟩
    · rw [hpairs, h.refs, filter_append, hold, hold, filter_filter, herase]
      congr 2
      refine filter_congr fun a ha => ?_
      have hne : a.attachmentId ≠ attachmentId := fun heq =>
        absurd (hasAttachment_iff.mpr ⟨a, ha, heq⟩) (Bool.eq_false_iff.mp hnot)
      rw [decide_eq_true hne, Bool.true_and]
    · rw [herase]
      exact h.nodup.sublist ((filter_sublist.append_left _).map _)
    · rw [herase] at ha
      exact h.knows a ((filter_sublist.append_left _).subset ha)
    · exact h.appends t (mem_of_mem_filter ht)
    · exact h.texts t (mem_of_mem_filter ht)
  · have hfilter : (attachments.filter fun a => a.attachmentId ∉ pending.removals)
        = (attachments.filter fun a => a.attachmentId ∉ pending.removals).filter
          fun a => a.attachmentId ≠ attachmentId := by
      refine (filter_eq_self.mpr fun a ha => ?_).symm
      rw [decide_eq_true_eq]
      intro heq
      exact of_decide_eq_true (mem_filter.mp ha).2 (heq ▸ hremoved)
    refine ⟨?_, h.nodup, h.knows, fun t ht => h.appends t (mem_of_mem_filter ht),
      fun t ht => h.texts t (mem_of_mem_filter ht), h.unknown⟩
    rw [hpairs, h.refs, filter_append, hold, hold, ← hfilter,
      habsent (Bool.eq_false_iff.mpr hnew)]
  · refine ⟨?_, h.nodup, h.knows, fun t ht => h.appends t (mem_of_mem_filter ht),
      fun t ht => h.texts t (mem_of_mem_filter ht), h.unknown⟩
    rw [hpairs, h.refs, filter_append, hold, hold, filter_filter,
      habsent (Bool.eq_false_iff.mpr hnew)]
    congr 2
    refine filter_congr fun a _ => ?_
    simp only [mem_append, mem_singleton, not_or, Bool.decide_and]
    exact Bool.and_comm _ _
  · refine ⟨?_, h.nodup, h.knows, fun t ht => h.appends t (mem_of_mem_filter ht),
      fun t ht => h.texts t (mem_of_mem_filter ht), h.unknown⟩
    rw [hpairs, h.refs, filter_append, hold, hold, filter_filter,
      habsent (Bool.eq_false_iff.mpr hnew)]
    congr 2
    refine filter_congr fun a ha => ?_
    have hne : a.attachmentId ≠ attachmentId := fun heq =>
      hexists (hasAttachment_iff.mpr ⟨a, ha, heq⟩)
    rw [decide_eq_true hne, Bool.true_and]

theorem pendingAppend_concat (ref : AttachmentReference) (appends : List StoredChunks)
    (stored : StoredChunks) : pendingAppend ref (appends ++ [stored])
      = some (nextAppend ref (pendingAppend ref appends) stored) := by
  rw [pendingAppend, foldl_append]
  rfl

/-- **Appending.** -/
theorem Collected.append (h : Collected attachments pending tracked known)
    (attachmentId : JSString) (stored : Option StoredChunks) :
    Collected attachments (pending.appendToAttachment attachments attachmentId stored)
      (tracked.map (·.record (.appendToAttachment attachmentId stored))) known := by
  cases stored with
  | none =>
    have hid : tracked.map (·.record (.appendToAttachment attachmentId none)) = tracked :=
      map_id' tracked
    rw [hid]
    unfold PendingAttachments.appendToAttachment
    split
    · rename_i hnone
      cases hnone
    · exact h
  | some stored =>
    have hrecord {t : TrackedAttachment} (hne : t.id ≠ attachmentId) :
        t.record (.appendToAttachment attachmentId (some stored)) = t := if_neg hne
    unfold PendingAttachments.appendToAttachment
    split
    · rename_i ref stored' hfound hstored
      cases hstored
      have hknown : attachmentId ∈ known := by
        rcases Option.or_eq_some_iff.mp hfound with hfind | ⟨-, hfind⟩
        · obtain ⟨hmem, hid⟩ := findAttachment_spec hfind
          exact hid ▸ h.knows ref (mem_append_left _ hmem)
        · obtain ⟨hmem, hid⟩ := findAttachment_spec hfind
          exact hid ▸ h.knows ref (mem_append_right _ hmem)
      refine ⟨(map_pair_record _).trans h.refs, h.nodup, h.knows, fun t ht => ?_, fun t ht => ?_,
        fun other hother => ?_⟩
      · obtain ⟨t, hmem, rfl⟩ := mem_map.mp ht
        by_cases hid : t.id = attachmentId
        · have href : ref = t.ref := by
            have hsome := find?_append_eq_some h.nodup (h.mem_of_mem hmem)
            rw [← TrackedAttachment.id, hid, hfound] at hsome
            exact Option.some.inj hsome
          have heq : t.record (.appendToAttachment attachmentId (some stored))
              = { t with appends := t.appends ++ [stored] } := if_pos hid
          have hbefore := h.appends t hmem
          rw [hid] at hbefore
          rw [heq]
          change (pending.appends.set attachmentId _).get? t.id = pendingAppend t.ref _
          rw [hid, get?_set_self, pendingAppend_concat, hbefore, href]
        · rw [hrecord hid, get?_set_of_ne _ _ hid]
          exact h.appends t hmem
      · obtain ⟨t, hmem, rfl⟩ := mem_map.mp ht
        rw [TrackedAttachment.id, (record_ref t _).1]
        refine (h.texts t hmem).trans ?_
        rw [TrackedAttachment.record]
        split_ifs <;> rfl
      · have hne : other ≠ attachmentId := fun heq => hother (heq ▸ hknown)
        rw [get?_set_of_ne _ _ hne]
        exact h.unknown other hother
    · rename_i hnone
      have habsent : ∀ t ∈ tracked, t.id ≠ attachmentId := by
        rintro t ht rfl
        exact hnone _ _ (find?_append_eq_some h.nodup (h.mem_of_mem ht)) rfl
      have hid : tracked.map (·.record (.appendToAttachment attachmentId (some stored)))
          = tracked :=
        (map_congr_left fun t ht => hrecord (habsent t ht)).trans (map_id' tracked)
      rw [hid]
      exact h

/-- **Setting a text.** -/
theorem Collected.setText (h : Collected attachments pending tracked known)
    (attachmentId : JSString) (result : ExtractionResult) :
    Collected attachments (pending.setAttachmentExtractedText attachments attachmentId result)
      (tracked.map (·.record (.setAttachmentExtractedText attachmentId result))) known := by
  have hrecord {t : TrackedAttachment} (hne : t.id ≠ attachmentId) :
      t.record (.setAttachmentExtractedText attachmentId result) = t := if_neg hne
  unfold PendingAttachments.setAttachmentExtractedText
  split_ifs with hexists
  · obtain ⟨t₀, ht₀, hid₀⟩ := (h.exists_iff attachmentId).mpr hexists
    have hknown : attachmentId ∈ known := hid₀ ▸ h.knows _ (h.mem_of_mem ht₀)
    refine ⟨(map_pair_record _).trans h.refs, h.nodup, h.knows, fun t ht => ?_, fun t ht => ?_,
      fun other hother => ?_⟩
    · obtain ⟨t, hmem, rfl⟩ := mem_map.mp ht
      rw [TrackedAttachment.id, (record_ref t _).1]
      refine (h.appends t hmem).trans ?_
      rw [TrackedAttachment.record]
      split_ifs <;> rfl
    · obtain ⟨t, hmem, rfl⟩ := mem_map.mp ht
      by_cases hid : t.id = attachmentId
      · have heq : t.record (.setAttachmentExtractedText attachmentId result)
            = { t with texts := t.texts ++ [result.capped] } := if_pos hid
        rw [heq]
        change (pending.textUpdates.set attachmentId _).get? t.id = (t.texts ++ [_]).getLast?
        rw [hid, get?_set_self, getLast?_concat]
      · rw [hrecord hid, get?_set_of_ne _ _ hid]
        exact h.texts t hmem
    · have hne : other ≠ attachmentId := fun heq => hother (heq ▸ hknown)
      rw [get?_set_of_ne _ _ hne]
      exact h.unknown other hother
  · have hid : tracked.map (·.record (.setAttachmentExtractedText attachmentId result))
        = tracked := by
      refine (map_congr_left fun t ht => hrecord fun heq => ?_).trans (map_id' tracked)
      exact hexists ((h.exists_iff attachmentId).mp ⟨t, ht, heq⟩)
    rw [hid]
    exact h

/-- The ids that are known after a call. -/
def knownAfter (known : List JSString) (call : AttachmentCall) : List JSString :=
  known ++ (call.added?.map AttachmentReference.attachmentId).toList

/-- **One call.** -/
theorem Collected.step (h : Collected attachments pending tracked known)
    (hfresh : ∀ ref, call.added? = some ref → ref.attachmentId ∉ known) :
    Collected attachments (pending.call attachments call) (trackCall tracked call)
      (knownAfter known call) := by
  have hadded (uploaded : Option AttachmentReference) (hcall : call.added? = uploaded)
      (hpending : pending.call attachments call = pending.addAttachment uploaded)
      (hsurvives : ∀ t : TrackedAttachment, t.survives call = true)
      (hrecord : ∀ t : TrackedAttachment, t.record call = t) :
      Collected attachments (pending.call attachments call) (trackCall tracked call)
        (knownAfter known call) := by
    have htracked : (tracked.filter (·.survives call)).map (·.record call) = tracked := by
      rw [filter_eq_self.mpr fun t _ => hsurvives t]
      exact (map_congr_left fun t _ => hrecord t).trans (map_id' tracked)
    rw [trackCall, knownAfter, htracked, hpending, hcall]
    cases uploaded with
    | some ref => exact h.add (hfresh ref hcall)
    | none =>
      rw [Option.map_none, Option.map_none, Option.toList_none, Option.toList_none,
        append_nil, append_nil]
      exact h
  have hknown (hcall : call.added? = none) : knownAfter known call = known := by
    rw [knownAfter, hcall]
    exact append_nil known
  cases call with
  | addAttachment uploaded | addAttachmentStream uploaded =>
    exact hadded uploaded rfl rfl (fun _ => rfl) fun _ => rfl
  | removeAttachment attachmentId =>
    have htracked : trackCall tracked (.removeAttachment attachmentId)
        = tracked.filter fun t => t.id ≠ attachmentId :=
      (append_nil _).trans (map_id' _)
    rw [hknown rfl, htracked]
    exact h.remove attachmentId
  | appendToAttachment attachmentId stored =>
    rw [hknown rfl, trackCall_of_record rfl fun _ => rfl]
    exact h.append attachmentId stored
  | setAttachmentExtractedText attachmentId result =>
    rw [hknown rfl, trackCall_of_record rfl fun _ => rfl]
    exact h.setText attachmentId result

/-- The callback starts with nothing collected. -/
theorem collected_untouched
    (h : (attachments.map AttachmentReference.attachmentId).Nodup) :
    Collected attachments {} (untouched attachments)
      (attachments.map AttachmentReference.attachmentId) := by
  refine ⟨?_, ?_, fun a ha => ?_, fun t ht => ?_, fun t ht => ?_, fun _ _ => ⟨rfl, rfl⟩⟩
  · have hall : (attachments.filter fun a => a.attachmentId ∉ ([] : List JSString)) = attachments :=
      filter_eq_self.mpr fun a _ => by simp
    rw [untouched, map_map]
    exact (congrArg (List.map (·, false)) hall.symm).trans (append_nil _).symm
  · rw [append_nil]
    exact h
  · rw [append_nil] at ha
    exact mem_map.mpr ⟨a, ha, rfl⟩
  · obtain ⟨a, -, rfl⟩ := mem_map.mp ht
    rfl
  · obtain ⟨a, -, rfl⟩ := mem_map.mp ht
    rfl

/-- **All calls of a callback.** -/
theorem Collected.calls {calls : List AttachmentCall}
    (h : Collected attachments pending tracked known)
    (hfresh : (known ++ (calls.filterMap AttachmentCall.added?).map
      AttachmentReference.attachmentId).Nodup) :
    ∃ known', Collected attachments (calls.foldl (PendingAttachments.call attachments) pending)
      (track tracked calls) known' := by
  induction calls generalizing pending tracked known with
  | nil => exact ⟨known, h⟩
  | cons call calls ih =>
    have hafter : (knownAfter known call ++ (calls.filterMap AttachmentCall.added?).map
        AttachmentReference.attachmentId).Nodup := by
      rw [knownAfter, append_assoc]
      rw [filterMap_cons] at hfresh
      cases hadded : call.added? with
      | none | some ref =>
        rw [hadded] at hfresh
        exact hfresh
    refine ih (h.step fun ref hadded hknown => ?_) hafter
    rw [knownAfter, hadded, nodup_append] at hafter
    have hdisjoint := nodup_append.mp hafter.1
    exact hdisjoint.2.2 _ hknown _ mem_cons_self rfl

/-! ## Applying what was collected -/

/-- **An attachment after its `changeDoc`**: appends count unless it is new, and the last text. -/
def finish (now : ℤ) (t : TrackedAttachment) : AttachmentReference :=
  let appended := (if t.isNew then none else pendingAppend t.ref t.appends).elim t.ref
    fun appended => t.ref.append appended
  t.texts.getLast?.elim appended fun update => appended.setExtractedText now update

theorem setExtractedText_id (now : ℤ) (update : ExtractionResult) (a : AttachmentReference) :
    (a.setExtractedText now update).attachmentId = a.attachmentId := by
  unfold AttachmentReference.setExtractedText
  split_ifs <;> rfl

theorem editEach_eq_map {ν : Type} (edit : ν → AttachmentReference → AttachmentReference)
    (hedit : ∀ v a, (edit v a).attachmentId = a.attachmentId) {edits : LinkedMap JSString ν}
    (h : (attachments.map AttachmentReference.attachmentId).Nodup) :
    editEach edit edits attachments
      = attachments.map fun a => (edits.get? a.attachmentId).elim a fun v => edit v a :=
  foldl_updateFirst edits.nodup_keys hedit h

theorem Collected.apply_eq (h : Collected attachments pending tracked known) :
    pending.apply now attachments = tracked.map (finish now) := by
  have hattachments : (attachments.map AttachmentReference.attachmentId).Nodup := by
    have hnodup := h.nodup
    rw [map_append] at hnodup
    exact (nodup_append.mp hnodup).1
  have hkept : ((attachments.filter fun a => a.attachmentId ∉ pending.removals).map
      AttachmentReference.attachmentId).Nodup := hattachments.sublist (filter_sublist.map _)
  have hrest := h.nodup.sublist ((filter_sublist (p := fun a : AttachmentReference =>
    decide (a.attachmentId ∉ pending.removals)).append_right pending.additions).map
      AttachmentReference.attachmentId)
  have hpairs : ((attachments.filter fun a => a.attachmentId ∉ pending.removals).map fun a =>
        (pending.appends.get? a.attachmentId).elim a fun appended => a.append appended)
          ++ pending.additions
      = tracked.map fun t => (if t.isNew then none else pendingAppend t.ref t.appends).elim t.ref
        fun appended => t.ref.append appended := by
    have hmap := congrArg (List.map fun p : AttachmentReference × Bool =>
      (if p.2 then none else pending.appends.get? p.1.attachmentId).elim p.1
        fun appended => p.1.append appended) h.refs
    rw [map_map, map_append, map_map, map_map] at hmap
    refine Eq.trans (congrArg₂ _ rfl (map_id _).symm) (hmap.symm.trans ?_)
    refine map_congr_left fun t ht => ?_
    rw [Function.comp_apply, ← h.appends t ht]
    rfl
  have hids : (((attachments.filter fun a => a.attachmentId ∉ pending.removals).map fun a =>
      (pending.appends.get? a.attachmentId).elim a fun appended => a.append appended)
        ++ pending.additions).map AttachmentReference.attachmentId
      = ((attachments.filter fun a => a.attachmentId ∉ pending.removals)
        ++ pending.additions).map AttachmentReference.attachmentId := by
    rw [map_append, map_append, map_map]
    congr 1
    refine map_congr_left fun a _ => ?_
    rw [Function.comp_apply]
    cases pending.appends.get? a.attachmentId <;> rfl
  unfold PendingAttachments.apply
  dsimp only
  rw [foldl_eraseFirst pending.removals hattachments,
    editEach_eq_map (fun appended a => a.append appended) (fun _ _ => rfl) hkept,
    editEach_eq_map (fun update a => a.setExtractedText now update) (setExtractedText_id now)
      (hids ▸ hrest), hpairs, map_map]
  refine map_congr_left fun t ht => ?_
  have hid : ((if t.isNew then none else pendingAppend t.ref t.appends).elim t.ref
      fun appended => t.ref.append appended).attachmentId = t.id := by
    cases (if t.isNew then none else pendingAppend t.ref t.appends) <;> rfl
  rw [Function.comp_apply, hid, h.texts t ht]
  rfl

/-- **The list after a `changeDoc`.** -/
theorem changeAttachments_eq (now : ℤ) {calls : List AttachmentCall}
    (hfresh : FreshIds attachments calls) : changeAttachments now attachments calls
      = (track (untouched attachments) calls).map (finish now) := by
  unfold FreshIds at hfresh
  rw [map_append] at hfresh
  have hnodup := (nodup_append.mp hfresh).1
  obtain ⟨known, hcollected⟩ := (collected_untouched hnodup).calls hfresh
  exact hcollected.apply_eq

/-! ## One by one -/

def appendStored (a : AttachmentReference) (stored : StoredChunks) : AttachmentReference :=
  a.append (appendToAttachmentInternal a.lastChunkId stored)

def setTexts (now : ℤ) (texts : List ExtractionResult) (a : AttachmentReference) :
    AttachmentReference :=
  texts.foldl (fun a update => a.setExtractedText now update) a

/-- **An attachment after all of its edits.** -/
def settle (now : ℤ) (t : TrackedAttachment) : AttachmentReference :=
  setTexts now t.texts (t.appends.foldl appendStored t.ref)

theorem setTexts_id (now : ℤ) (texts : List ExtractionResult) (a : AttachmentReference) :
    (setTexts now texts a).attachmentId = a.attachmentId := by
  induction texts generalizing a with
  | nil => rfl
  | cons update texts ih => exact (ih _).trans (setExtractedText_id now update a)

theorem foldl_appendStored_id (appends : List StoredChunks) (a : AttachmentReference) :
    (appends.foldl appendStored a).attachmentId = a.attachmentId := by
  induction appends generalizing a with
  | nil => rfl
  | cons stored appends ih => exact ih _

theorem settle_id (now : ℤ) (t : TrackedAttachment) : (settle now t).attachmentId = t.id :=
  (setTexts_id now _ _).trans (foldl_appendStored_id _ _)

/-- A text leaves the chunks alone. -/
theorem setExtractedText_append (now : ℤ) (update : ExtractionResult) (a : AttachmentReference)
    (pending : PendingAppend) : (a.append pending).setExtractedText now update
      = (a.setExtractedText now update).append pending := by
  unfold AttachmentReference.setExtractedText
  split_ifs <;> rfl

theorem setExtractedText_lastChunkId (now : ℤ) (update : ExtractionResult)
    (a : AttachmentReference) : (a.setExtractedText now update).lastChunkId = a.lastChunkId := by
  unfold AttachmentReference.setExtractedText
  split_ifs <;> rfl

theorem setTexts_appendStored (now : ℤ) (texts : List ExtractionResult) (a : AttachmentReference)
    (stored : StoredChunks) :
    setTexts now texts (appendStored a stored) = appendStored (setTexts now texts a) stored := by
  induction texts generalizing a with
  | nil => rfl
  | cons update texts ih =>
    have hstep : (appendStored a stored).setExtractedText now update
        = appendStored (a.setExtractedText now update) stored := by
      rw [appendStored, setExtractedText_append, appendStored, setExtractedText_lastChunkId]
    exact (congrArg (setTexts now texts) hstep).trans (ih _)

/-- **One call of its own** edits an attachment as the call does. -/
theorem finish_record (now : ℤ) (t : TrackedAttachment) (call : AttachmentCall) :
    finish now ({ ref := settle now t : TrackedAttachment }.record call)
      = settle now (t.record call) := by
  have hid : ({ ref := settle now t : TrackedAttachment } : TrackedAttachment).id = t.id :=
    settle_id now t
  cases call with
  | addAttachment | addAttachmentStream | removeAttachment => rfl
  | appendToAttachment attachmentId stored =>
    cases stored with
    | none => rfl
    | some stored =>
      unfold TrackedAttachment.record
      rw [hid]
      dsimp only
      split_ifs with h
      · refine Eq.trans (b := appendStored (settle now t) stored) rfl ?_
        rw [settle, settle, foldl_append]
        exact (setTexts_appendStored now _ _ _).symm
      · rfl
  | setAttachmentExtractedText attachmentId result =>
    unfold TrackedAttachment.record
    rw [hid]
    dsimp only
    split_ifs with h
    · refine Eq.trans (b := (settle now t).setExtractedText now result.capped) rfl ?_
      rw [settle, settle, setTexts, setTexts, foldl_append]
      rfl
    · rfl

theorem changeAttachments_singleton (now : ℤ) {call : AttachmentCall}
    (hfresh : ((tracked.map TrackedAttachment.id) ++ (call.added?.map
      AttachmentReference.attachmentId).toList).Nodup) :
    changeAttachments now (tracked.map (settle now)) [call]
      = (trackCall tracked call).map (settle now) := by
  have hids : (tracked.map (settle now)).map AttachmentReference.attachmentId
      = tracked.map TrackedAttachment.id := by
    rw [map_map]
    exact map_congr_left fun t _ => settle_id now t
  have hfresh' : FreshIds (tracked.map (settle now)) [call] := by
    unfold FreshIds
    rw [map_append, hids]
    cases hadded : call.added? <;> simpa [hadded] using hfresh
  rw [changeAttachments_eq now hfresh']
  change (trackCall (untouched (tracked.map (settle now))) call).map (finish now) = _
  have hsurvives (t : TrackedAttachment) :
      ({ ref := settle now t : TrackedAttachment }).survives call = t.survives call := by
    cases call <;> first | rfl | exact congrArg (fun i => decide (i ≠ _)) (settle_id now t)
  have huntouched : untouched (tracked.map (settle now))
      = tracked.map fun t => { ref := settle now t } := map_map
  rw [trackCall, trackCall, map_append, map_append, huntouched, filter_map,
    map_map, map_map, map_map]
  congr 1
  · have hfilter : (tracked.filter fun t =>
        ({ ref := settle now t : TrackedAttachment }).survives call)
        = tracked.filter (·.survives call) := filter_congr fun t _ => hsurvives t
    refine Eq.trans ?_ (congrArg (List.map fun t => settle now (t.record call)) hfilter)
    exact map_congr_left fun t _ => finish_record now t call
  · cases call.added? <;> rfl

/-- The ids that are there after a call. -/
theorem ids_trackCall (call : AttachmentCall) :
    ((trackCall tracked call).map TrackedAttachment.id).Sublist
      (tracked.map TrackedAttachment.id
        ++ (call.added?.map AttachmentReference.attachmentId).toList) := by
  rw [trackCall, map_append, map_map]
  have hkept : ((tracked.filter (·.survives call)).map
      (TrackedAttachment.id ∘ fun t => t.record call))
      = (tracked.filter (·.survives call)).map TrackedAttachment.id :=
    map_congr_left fun t _ => congrArg AttachmentReference.attachmentId (record_ref t call).1
  have hnew : ((call.added?.map fun ref => { ref, isNew := true : TrackedAttachment }).toList).map
      TrackedAttachment.id = (call.added?.map AttachmentReference.attachmentId).toList := by
    cases call.added? <;> rfl
  rw [hkept, hnew]
  exact (filter_sublist.map _).append_right _

/-- **Each call in a `changeDoc` of its own.** -/
theorem foldl_changeAttachments (now : ℤ) {calls : List AttachmentCall}
    (hfresh : (tracked.map TrackedAttachment.id ++ (calls.filterMap AttachmentCall.added?).map
      AttachmentReference.attachmentId).Nodup) :
    changeOneByOne now (tracked.map (settle now)) calls
      = (track tracked calls).map (settle now) := by
  induction calls generalizing tracked with
  | nil => rfl
  | cons call calls ih =>
    have hsplit : (call :: calls).filterMap AttachmentCall.added?
        = call.added?.toList ++ calls.filterMap AttachmentCall.added? := by
      rw [filterMap_cons]
      cases call.added? <;> rfl
    have hmap : call.added?.toList.map AttachmentReference.attachmentId
        = (call.added?.map AttachmentReference.attachmentId).toList := by
      cases call.added? <;> rfl
    rw [hsplit, map_append, hmap, ← append_assoc] at hfresh
    have hstep := changeAttachments_singleton now (nodup_append.mp hfresh).1
    refine Eq.trans ?_ (ih (hfresh.sublist ((ids_trackCall call).append_right _)))
    exact congrArg (fun l => changeOneByOne now l calls) hstep

theorem changeOneByOne_eq (now : ℤ) {calls : List AttachmentCall}
    (hfresh : FreshIds attachments calls) : changeOneByOne now attachments calls
      = (track (untouched attachments) calls).map (settle now) := by
  have hsettled : (untouched attachments).map (settle now) = attachments := by
    rw [untouched, map_map]
    exact map_id _
  have hids : (untouched attachments).map TrackedAttachment.id
      = attachments.map AttachmentReference.attachmentId := by
    rw [untouched, map_map]
    rfl
  unfold FreshIds at hfresh
  rw [map_append, ← hids] at hfresh
  have hrun := foldl_changeAttachments now hfresh
  rw [hsettled] at hrun
  exact hrun

/-! ## Only the last result -/

namespace AttachmentCall

def setsText (attachmentId : JSString) : AttachmentCall → Bool
  | setAttachmentExtractedText id _ => id = attachmentId
  | _ => false

/-- A result for which a later call has another one. -/
def replacedBy (later : List AttachmentCall) : AttachmentCall → Bool
  | setAttachmentExtractedText attachmentId _ => later.any (setsText attachmentId)
  | _ => false

end AttachmentCall

/-- The calls, with only the last result for each attachment. -/
def keepLastResults : List AttachmentCall → List AttachmentCall
  | [] => []
  | call :: calls =>
    if call.replacedBy calls then keepLastResults calls else call :: keepLastResults calls

/-- An attachment when only last results are recorded and some calls are still to come. -/
def onlyLast (later : List AttachmentCall) (t : TrackedAttachment) : TrackedAttachment :=
  { t with texts := if later.any (·.setsText t.id) then [] else t.texts.getLast?.toList }

theorem onlyLast_cons (calls : List AttachmentCall) (h : call.setsText t.id = false) :
    onlyLast (call :: calls) t = onlyLast calls t := by
  rw [onlyLast, onlyLast, any_cons, h, Bool.false_or]

section SetText

variable {attachmentId : JSString} {result : ExtractionResult}

theorem record_setText_self (h : t.id = attachmentId) :
    t.record (.setAttachmentExtractedText attachmentId result)
      = { t with texts := t.texts ++ [result.capped] } := if_pos h

theorem record_setText_of_ne (h : t.id ≠ attachmentId) :
    t.record (.setAttachmentExtractedText attachmentId result) = t := if_neg h

theorem onlyLast_setText_self (calls : List AttachmentCall) (h : t.id = attachmentId) :
    onlyLast (.setAttachmentExtractedText attachmentId result :: calls) t
      = { t with texts := [] } := by
  rw [onlyLast, if_pos]
  rw [any_cons, AttachmentCall.setsText, decide_eq_true h.symm, Bool.true_or]

theorem onlyLast_setText_of_ne (calls : List AttachmentCall) (h : t.id ≠ attachmentId) :
    onlyLast (.setAttachmentExtractedText attachmentId result :: calls) t = onlyLast calls t :=
  onlyLast_cons calls (decide_eq_false (Ne.symm h))

end SetText

/-- A call that is not replaced. -/
theorem record_onlyLast {calls : List AttachmentCall}
    (h : call.replacedBy calls = false) (t : TrackedAttachment) :
    (onlyLast (call :: calls) t).record call = onlyLast calls (t.record call) := by
  cases call with
  | addAttachment | addAttachmentStream | removeAttachment => exact onlyLast_cons calls rfl
  | appendToAttachment attachmentId stored =>
    cases stored with
    | none => rfl
    | some stored =>
      unfold TrackedAttachment.record
      by_cases hid : t.id = attachmentId
      · refine (if_pos hid).trans (Eq.trans ?_ (congrArg (onlyLast calls) (if_pos hid)).symm)
        rfl
      · exact (if_neg hid).trans (congrArg (onlyLast calls) (if_neg hid)).symm
  | setAttachmentExtractedText attachmentId result =>
    by_cases hid : t.id = attachmentId
    · have hlater : calls.any (·.setsText t.id) = false := hid ▸ h
      have hempty : ({ t with texts := [] } : TrackedAttachment).id = attachmentId := hid
      rw [onlyLast_setText_self calls hid, record_setText_self hid, record_setText_self hempty,
        onlyLast]
      change _ = ({ t with texts := if calls.any (·.setsText t.id) then [] else
        (t.texts ++ [result.capped]).getLast?.toList } : TrackedAttachment)
      rw [hlater, getLast?_concat]
      rfl
    · rw [onlyLast_setText_of_ne calls hid, record_setText_of_ne hid]
      exact record_setText_of_ne (t := onlyLast calls t) hid

/-- A call that is replaced. -/
theorem onlyLast_replaced {calls : List AttachmentCall} (h : call.replacedBy calls = true) :
    tracked.map (onlyLast (call :: calls)) = (trackCall tracked call).map (onlyLast calls) := by
  cases call with
  | addAttachment | addAttachmentStream | removeAttachment | appendToAttachment => cases h
  | setAttachmentExtractedText attachmentId result =>
    rw [trackCall_of_record rfl fun _ => rfl, map_map]
    refine map_congr_left fun t _ => ?_
    rw [Function.comp_apply]
    by_cases hid : t.id = attachmentId
    · have hlater : calls.any (·.setsText t.id) = true := hid ▸ h
      rw [onlyLast_setText_self calls hid, record_setText_self hid, onlyLast]
      change _ = ({ t with texts := if calls.any (·.setsText t.id) then [] else
        (t.texts ++ [result.capped]).getLast?.toList } : TrackedAttachment)
      rw [hlater]
      rfl
    · rw [onlyLast_setText_of_ne calls hid, record_setText_of_ne hid]

theorem trackCall_onlyLast {call : AttachmentCall} {calls : List AttachmentCall}
    (h : call.replacedBy calls = false) :
    trackCall (tracked.map (onlyLast (call :: calls))) call
      = (trackCall tracked call).map (onlyLast calls) := by
  rw [trackCall, trackCall, filter_map, map_map, map_append, map_map]
  congr 1
  · have hfilter : (tracked.filter ((·.survives call) ∘ onlyLast (call :: calls)))
        = tracked.filter (·.survives call) :=
      filter_congr fun t _ => by cases call <;> rfl
    exact map_congr_left fun t _ => record_onlyLast h t
  · cases call.added? with
    | none => rfl
    | some ref =>
      refine congrArg (fun t => [t]) ?_
      change _ = ({ ref, isNew := true, texts := if calls.any _ then [] else [] } :
        TrackedAttachment)
      rw [ite_self]

/-- **Dropping replaced results** leaves each attachment its last text. -/
theorem track_keepLastResults (tracked : List TrackedAttachment) (calls : List AttachmentCall) :
    track (tracked.map (onlyLast calls)) (keepLastResults calls)
      = (track tracked calls).map (onlyLast []) := by
  induction calls generalizing tracked with
  | nil => rfl
  | cons call calls ih =>
    rw [keepLastResults]
    split_ifs with hreplaced
    · rw [onlyLast_replaced hreplaced]
      exact ih _
    · refine Eq.trans ?_ (ih _)
      exact congrArg (fun l => track l (keepLastResults calls))
        (trackCall_onlyLast (Bool.eq_false_iff.mpr hreplaced))

theorem keepLastResults_sublist (calls : List AttachmentCall) :
    (keepLastResults calls).Sublist calls := by
  induction calls with
  | nil => exact List.Sublist.slnil
  | cons call calls ih =>
    rw [keepLastResults]
    split_ifs
    · exact ih.cons call
    · exact ih.cons_cons call

/-! ## Both ways -/

/-- The appends of one callback are the appends one by one. -/
theorem append_pendingAppend (ref : AttachmentReference) (appends : List StoredChunks) :
    (pendingAppend ref appends).elim ref (fun appended => ref.append appended)
      = appends.foldl appendStored ref := by
  induction appends using List.reverseRecOn with
  | nil => rfl
  | append_singleton appends stored ih =>
    rw [pendingAppend_concat, foldl_append, ← ih]
    cases pendingAppend ref appends with
    | none => rfl
    | some prevAppend =>
      change ref.append _ = appendStored (ref.append prevAppend) stored
      unfold appendStored AttachmentReference.append nextAppend
      rw [Nat.add_assoc]

theorem foldl_appendStored_empty {appends : List StoredChunks}
    (h : ∀ stored ∈ appends, stored.size = 0) : appends.foldl appendStored a = a := by
  induction appends with
  | nil => rfl
  | cons stored appends ih =>
    obtain ⟨hsize, hrest⟩ := forall_mem_cons.mp h
    have hstored : appendStored a stored = a := by
      unfold appendStored AttachmentReference.append appendToAttachmentInternal
      rw [stored.chunked.mpr hsize, hsize]
      rfl
    rw [foldl_cons, hstored]
    exact ih hrest

/-- What an attachment is but for its chunks. -/
def EqualButChunks (a b : AttachmentReference) : Prop :=
  { a with lastChunkId := b.lastChunkId, size := b.size } = b

theorem foldl_appendStored_butChunks (appends : List StoredChunks) (a : AttachmentReference) :
    EqualButChunks a (appends.foldl appendStored a) := by
  induction appends generalizing a with
  | nil => exact rfl
  | cons stored appends ih => exact ih (appendStored a stored)

theorem EqualButChunks.setExtractedText {b : AttachmentReference} (h : EqualButChunks a b)
    (now : ℤ) (update : ExtractionResult) :
    EqualButChunks (a.setExtractedText now update) (b.setExtractedText now update) := by
  unfold EqualButChunks at h ⊢
  rw [← h]
  unfold AttachmentReference.setExtractedText
  split_ifs <;> rfl

theorem settle_onlyLast (now : ℤ) (t : TrackedAttachment) :
    settle now (onlyLast [] t)
      = t.texts.getLast?.elim (t.appends.foldl appendStored t.ref) fun update =>
        (t.appends.foldl appendStored t.ref).setExtractedText now update := by
  change setTexts now t.texts.getLast?.toList _ = _
  cases t.texts.getLast? <;> rfl

theorem finish_butChunks (now : ℤ) (t : TrackedAttachment) :
    EqualButChunks (finish now t) (settle now (onlyLast [] t)) := by
  have hchunks : EqualButChunks
      ((if t.isNew then none else pendingAppend t.ref t.appends).elim t.ref
        fun appended => t.ref.append appended) (t.appends.foldl appendStored t.ref) := by
    split_ifs
    · exact foldl_appendStored_butChunks t.appends t.ref
    · rw [append_pendingAppend]
      exact rfl
  rw [settle_onlyLast, finish]
  cases t.texts.getLast? with
  | none => exact hchunks
  | some update => exact hchunks.setExtractedText now update

theorem finish_eq (h : t.isNew = true → ∀ stored ∈ t.appends, stored.size = 0) (now : ℤ) :
    finish now t = settle now (onlyLast [] t) := by
  have hchunks : ((if t.isNew then none else pendingAppend t.ref t.appends).elim t.ref
      fun appended => t.ref.append appended) = t.appends.foldl appendStored t.ref := by
    split_ifs with hnew
    · exact (foldl_appendStored_empty (h hnew)).symm
    · exact append_pendingAppend t.ref t.appends
  rw [settle_onlyLast, finish, hchunks]

/-- **Added and then appended to**, by the same callback. -/
def AddedThenAppended (calls : List AttachmentCall) (attachmentId : JSString)
    (stored : StoredChunks) : Prop :=
  ∃ earlier later, calls = earlier ++ later
    ∧ (∃ ref ∈ earlier.filterMap AttachmentCall.added?, ref.attachmentId = attachmentId)
    ∧ .appendToAttachment attachmentId (some stored) ∈ later

theorem AddedThenAppended.concat {calls : List AttachmentCall}
    {stored : StoredChunks} (h : AddedThenAppended calls attachmentId stored)
    (call : AttachmentCall) : AddedThenAppended (calls ++ [call]) attachmentId stored := by
  obtain ⟨earlier, later, rfl, hadded, happended⟩ := h
  exact ⟨earlier, later ++ [call], append_assoc .., hadded, mem_append_left _ happended⟩

/-- An append is recorded where it was before, or is made by the call. -/
theorem mem_appends_record {t : TrackedAttachment} {call : AttachmentCall} {stored : StoredChunks}
    (h : stored ∈ (t.record call).appends) :
    stored ∈ t.appends ∨ call = .appendToAttachment t.id (some stored) := by
  unfold TrackedAttachment.record at h
  split at h
  · split_ifs at h with hid
    · rcases mem_append.mp h with h | h
      · exact .inl h
      · rw [mem_singleton.mp h, hid]
        exact .inr rfl
    · exact .inl h
  · split_ifs at h <;> exact .inl h
  · exact .inl h

/-- **A new attachment** was added by a call, and its appends came after. -/
theorem addedThenAppended_of_mem {calls : List AttachmentCall} {t : TrackedAttachment}
    (ht : t ∈ track (untouched attachments) calls) (hnew : t.isNew = true) :
    (∃ ref ∈ calls.filterMap AttachmentCall.added?, ref.attachmentId = t.id)
      ∧ ∀ stored ∈ t.appends, AddedThenAppended calls t.id stored := by
  induction calls using List.reverseRecOn generalizing t with
  | nil =>
    obtain ⟨a, -, rfl⟩ := mem_map.mp ht
    cases hnew
  | append_singleton calls call ih =>
    rw [track, foldl_append] at ht
    rcases mem_append.mp ht with hold | hadded
    · obtain ⟨t, hmem, rfl⟩ := mem_map.mp hold
      have hid : (t.record call).id = t.id :=
        congrArg AttachmentReference.attachmentId (record_ref t call).1
      obtain ⟨hadded, happends⟩ :=
        ih (mem_of_mem_filter hmem) ((record_ref t call).2.symm.trans hnew)
      rw [hid, filterMap_append]
      refine ⟨hadded.imp fun ref href => ⟨mem_append_left _ href.1, href.2⟩,
        fun stored hstored => ?_⟩
      rcases mem_appends_record hstored with hstored | rfl
      · exact (happends stored hstored).concat call
      · exact ⟨calls, [_], rfl, hadded, mem_singleton_self _⟩
    · obtain ⟨ref, href, rfl⟩ := Option.map_eq_some_iff.mp (Option.mem_toList.mp hadded)
      refine ⟨⟨ref, ?_, rfl⟩, nofun⟩
      rw [filterMap_append]
      exact mem_append_right _ (mem_filterMap.mpr ⟨call, mem_cons_self, href⟩)

/-- **Edits compose**, with one result for an attachment: the attachments are the same, and so are
their data, but for the chunks of those that were added and then appended to. -/
theorem edits_compose (now : ℤ) (attachments : List AttachmentReference)
    (calls : List AttachmentCall) (hfresh : FreshIds attachments calls) :
    List.Forall₂ (fun together oneByOne => EqualButChunks together oneByOne
        ∧ (together = oneByOne ∨ ∃ stored : StoredChunks, 0 < stored.size
          ∧ AddedThenAppended calls together.attachmentId stored))
      (changeAttachments now attachments calls)
      (changeOneByOne now attachments (keepLastResults calls)) := by
  have hlast : FreshIds attachments (keepLastResults calls) := by
    refine List.Nodup.sublist (List.Sublist.map _ (List.Sublist.append_left ?_ _)) hfresh
    exact (keepLastResults_sublist calls).filterMap _
  have hbare : (untouched attachments).map (onlyLast calls) = untouched attachments := by
    rw [untouched, map_map]
    refine map_congr_left fun a _ => ?_
    change ({ ref := a, texts := if calls.any _ then [] else [] } : TrackedAttachment) = _
    rw [ite_self]
  have htrack := track_keepLastResults (untouched attachments) calls
  rw [hbare] at htrack
  rw [changeAttachments_eq now hfresh, changeOneByOne_eq now hlast, htrack, map_map,
    forall₂_map_left_iff, forall₂_map_right_iff, forall₂_same]
  intro t ht
  refine ⟨finish_butChunks now t, ?_⟩
  by_cases hsizes : t.isNew = true → ∀ stored ∈ t.appends, stored.size = 0
  · exact .inl (finish_eq hsizes now)
  · push Not at hsizes
    obtain ⟨hnew, stored, hstored, hsize⟩ := hsizes
    have hid : (finish now t).attachmentId = t.id :=
      (congrArg AttachmentReference.attachmentId (finish_butChunks now t)).trans (settle_id now _)
    rw [hid]
    exact .inr ⟨stored, Nat.pos_of_ne_zero hsize,
      (addedThenAppended_of_mem ht hnew).2 stored hstored⟩

/-- A scanned page with its uploaded file. -/
def scannedPage : AttachmentReference where
  attachmentId := "scan"
  fileName := "page.pdf"
  mimeType := "application/pdf"
  size := 9
  lastChunkId := "scan-1"
  decryptionKeyId := "default"
  createdAt := 3
  createdBy := "ada"

def secondPage : StoredChunks := ⟨["scan-2"], 5, by decide⟩

/-- A page is recognised twice, and gets one more page in between. -/
def recognisedTwice : List AttachmentCall :=
  [.setAttachmentExtractedText "scan" { text := some "Iast year", engine := some "fast" },
    .appendToAttachment "scan" (some secondPage),
    .setAttachmentExtractedText "scan" { text := some "last year" }]

theorem edits_compose_scannedPage : FreshIds [scannedPage] recognisedTwice
    ∧ List.Forall₂ (fun together oneByOne => EqualButChunks together oneByOne
        ∧ (together = oneByOne ∨ ∃ stored : StoredChunks, 0 < stored.size
          ∧ AddedThenAppended recognisedTwice together.attachmentId stored))
      (changeAttachments 7 [scannedPage] recognisedTwice)
      (changeOneByOne 7 [scannedPage] (keepLastResults recognisedTwice)) :=
  have hfresh : FreshIds [scannedPage] recognisedTwice := by
    unfold FreshIds
    decide +kernel
  ⟨hfresh, edits_compose 7 _ _ hfresh⟩

/-- The first of two results names its engine, which the second one leaves in place where it comes
in a `changeDoc` of its own; and pages appended to a new attachment are lost. -/
theorem changeAttachments_ne_oneByOne :
    ∃ recognised added : List AttachmentCall,
      FreshIds [scannedPage] recognised ∧ changeAttachments 7 [scannedPage] recognised
        ≠ changeOneByOne 7 [scannedPage] recognised
      ∧ FreshIds [] added ∧ changeAttachments 7 [] added ≠ changeOneByOne 7 [] added := by
  refine ⟨recognisedTwice, [.addAttachment (some scannedPage),
    .appendToAttachment "scan" (some secondPage)], ?_, ?_, ?_, ?_⟩
  · unfold FreshIds
    decide +kernel
  · decide +kernel
  · unfold FreshIds
    decide +kernel
  · decide +kernel

end MindooDB
