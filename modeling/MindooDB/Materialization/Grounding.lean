import MindooDB.Materialization.Agreement

/-!
# Materialization/Grounding — the pruning is a greatest fixed point

A set of replay entries is **self-grounded** when each of them is vouched for, or has every
dependency in the set or vouched for.  `pruneToGroundedEntries` computes the largest such set from
below: what it drops is the least set that holds the entries lacking a dependency and goes along with
the child edges (`Ungrounded`).  Pruning twice drops nothing more, as what the snapshots vouch for is
never dropped (`vouchedFor_pruneToGroundedEntries`).
-/

namespace MindooDB

open Relation

variable (entries : List StoreEntryMetadata)

/-- **Replay entries that rest on nothing but themselves** and on what is vouched for. -/
def SelfGrounded (grounded : Set JSString) : Prop :=
  ∀ id ∈ grounded, IsReplayId entries id ∧
    (VouchedFor entries id ∨ ∀ dep, Names entries id dep → dep ∈ grounded ∨ VouchedFor entries dep)

variable {entries}

/-! ## The largest one -/

theorem Ungrounded.not_vouchedFor {id : JSString} (h : Ungrounded entries id) :
    ¬VouchedFor entries id := by
  obtain ⟨seed, hseed, hreach⟩ := h
  rcases hreach.cases_tail with rfl | ⟨below, -, hedge⟩
  · exact hseed.1
  · exact hedge.2

theorem Ungrounded.isReplayId {id : JSString} (h : Ungrounded entries id) :
    IsReplayId entries id := by
  obtain ⟨seed, ⟨-, dep, hnames, -⟩, hreach⟩ := h
  rcases hreach.cases_tail with rfl | ⟨below, -, hedge⟩
  · exact hnames.isReplayId
  · exact hedge.1.isReplayId

/-- An entry rests on its dependencies. -/
theorem Ungrounded.of_names {id dep : JSString} (hdep : Ungrounded entries dep)
    (hnames : Names entries id dep) (hnot : ¬VouchedFor entries id) : Ungrounded entries id := by
  obtain ⟨seed, hseed, hreach⟩ := hdep
  exact ⟨seed, hseed, hreach.tail ⟨hnames, hnot⟩⟩

/-- What is not ungrounded has its dependencies. -/
theorem selfGrounded_compl :
    SelfGrounded entries {id | IsReplayId entries id ∧ ¬Ungrounded entries id} := by
  rintro id ⟨hreplay, hgrounded⟩
  refine ⟨hreplay, ?_⟩
  by_contra hneither
  obtain ⟨hnot, hdeps⟩ := not_or.mp hneither
  push Not at hdeps
  obtain ⟨dep, hnames, hdrop, hdep⟩ := hdeps
  by_cases hthere : IsReplayId entries dep
  · have hun : Ungrounded entries dep := not_not.mp fun hun => hdrop ⟨hthere, hun⟩
    exact hgrounded (hun.of_names hnames hnot)
  · exact hgrounded ⟨id, ⟨hnot, dep, hnames, hthere, hdep⟩, .refl⟩

/-- **No self-grounded set has an ungrounded entry.** -/
theorem SelfGrounded.not_ungrounded {grounded : Set JSString} (h : SelfGrounded entries grounded)
    {id : JSString} (hun : Ungrounded entries id) : id ∉ grounded := by
  obtain ⟨seed, ⟨hnot, dep, hnames, hmissing, hdep⟩, hreach⟩ := hun
  -- induction along the child edges, from the entry that lacks a dependency
  induction hreach with
  | refl =>
    intro hmem
    rcases (h seed hmem).2 with hvouched | hall
    · exact hnot hvouched
    · rcases hall dep hnames with hin | hvouched
      · exact hmissing (h dep hin).1
      · exact hdep hvouched
  | @tail below above hbelow hedge ih =>
    intro hmem
    have hun : Ungrounded entries below := ⟨seed, ⟨hnot, dep, hnames, hmissing, hdep⟩, hbelow⟩
    rcases (h above hmem).2 with hvouched | hall
    · exact hedge.2 hvouched
    · rcases hall below hedge.1 with hin | hvouched
      · exact ih hin
      · exact hun.not_vouchedFor hvouched

theorem isGreatest_selfGrounded :
    IsGreatest {grounded | SelfGrounded entries grounded}
      {id | IsReplayId entries id ∧ ¬Ungrounded entries id} := by
  refine ⟨selfGrounded_compl, fun grounded h id hmem => ⟨(h id hmem).1, fun hun => ?_⟩⟩
  exact h.not_ungrounded hun hmem

/-! ## Pruning what was pruned -/

section Idempotent

variable (hids : (entries.map fun e => e.id).Nodup)

include hids

theorem mem_pruneToGroundedEntries_of_not_replay {e : StoreEntryMetadata} (he : e ∈ entries)
    (hreplay : isReplayEntry e = false) : e ∈ pruneToGroundedEntries entries := by
  refine (mem_pruneToGroundedEntries hids).mpr ⟨he, fun hun => ?_⟩
  obtain ⟨e', he', hr, hid⟩ := hun.isReplayId
  rw [List.inj_on_of_nodup_map hids he' he hid, hreplay] at hr
  exact nomatch hr

/-- The dependencies that are left are those of the entries that are left. -/
theorem names_pruneToGroundedEntries {id dep : JSString} :
    Names (pruneToGroundedEntries entries) id dep
      ↔ Names entries id dep ∧ ¬Ungrounded entries id := by
  simp only [Names, mem_pruneToGroundedEntries hids]
  constructor
  · rintro ⟨e, ⟨he, hgrounded⟩, hr, rfl, hdep⟩
    exact ⟨⟨e, he, hr, rfl, hdep⟩, hgrounded⟩
  · rintro ⟨⟨e, he, hr, rfl, hdep⟩, hgrounded⟩
    exact ⟨e, ⟨he, hgrounded⟩, hr, rfl, hdep⟩

theorem isReplayId_pruneToGroundedEntries {id : JSString} :
    IsReplayId (pruneToGroundedEntries entries) id
      ↔ IsReplayId entries id ∧ ¬Ungrounded entries id := by
  simp only [IsReplayId, mem_pruneToGroundedEntries hids]
  constructor
  · rintro ⟨e, ⟨he, hgrounded⟩, hr, rfl⟩
    exact ⟨⟨e, he, hr, rfl⟩, hgrounded⟩
  · rintro ⟨⟨e, he, hr, rfl⟩, hgrounded⟩
    exact ⟨e, ⟨he, hgrounded⟩, hr, rfl⟩

/-- **The snapshots vouch for the same ids** once the slice is pruned. -/
theorem vouchedFor_pruneToGroundedEntries {id : JSString} :
    VouchedFor (pruneToGroundedEntries entries) id ↔ VouchedFor entries id := by
  constructor
  · rintro ⟨root, ⟨s, hs, htype, hroot⟩, hreach⟩
    refine ⟨root, ⟨s, ((mem_pruneToGroundedEntries hids).mp hs).1, htype, hroot⟩, ?_⟩
    exact ReflTransGen.mono (fun _ _ hstep => ((names_pruneToGroundedEntries hids).mp hstep).1)
      root id hreach
  · rintro ⟨root, ⟨s, hs, htype, hroot⟩, hreach⟩
    have hkept : s ∈ pruneToGroundedEntries entries :=
      mem_pruneToGroundedEntries_of_not_replay hids hs (by simp [isReplayEntry, docReplayTypes, htype])
    refine ⟨root, ⟨s, hkept, htype, hroot⟩, ?_⟩
    -- every entry on the way is vouched for, so none of them was dropped
    induction hreach with
    | refl => exact .refl
    | @tail middle last hmiddle hstep ih =>
      refine ih.tail ((names_pruneToGroundedEntries hids).mpr ⟨hstep, fun hun => ?_⟩)
      exact hun.not_vouchedFor ⟨root, ⟨s, hs, htype, hroot⟩, hmiddle⟩

/-- Nothing that is left rests on what is missing. -/
theorem not_ungrounded_pruneToGroundedEntries {id : JSString} :
    ¬Ungrounded (pruneToGroundedEntries entries) id := by
  intro hun
  have hself : SelfGrounded (pruneToGroundedEntries entries)
      {id | IsReplayId entries id ∧ ¬Ungrounded entries id} := by
    intro id hmem
    refine ⟨(isReplayId_pruneToGroundedEntries hids).mpr hmem, ?_⟩
    rcases (selfGrounded_compl id hmem).2 with hvouched | hall
    · exact .inl ((vouchedFor_pruneToGroundedEntries hids).mpr hvouched)
    · refine .inr fun dep hnames => ?_
      rw [vouchedFor_pruneToGroundedEntries hids]
      exact hall dep ((names_pruneToGroundedEntries hids).mp hnames).1
  exact hself.not_ungrounded hun ((isReplayId_pruneToGroundedEntries hids).mp hun.isReplayId)

theorem nodup_ids_pruneToGroundedEntries :
    ((pruneToGroundedEntries entries).map fun e => e.id).Nodup := by
  obtain ⟨ungrounded, heq, -⟩ := exists_ungrounded hids
  rw [heq]
  exact hids.sublist (List.filter_sublist.map _)

theorem pruneToGroundedEntries_idem :
    pruneToGroundedEntries (pruneToGroundedEntries entries) = pruneToGroundedEntries entries := by
  obtain ⟨ungrounded, heq, hmem⟩ := exists_ungrounded (nodup_ids_pruneToGroundedEntries hids)
  rw [heq]
  refine List.filter_eq_self.mpr fun e _ => ?_
  rw [decide_eq_true_eq, hmem]
  exact not_ungrounded_pruneToGroundedEntries hids

end Idempotent

/-! ## The slice that is left -/

/-- **The largest self-grounded set is kept**, with everything that is no replay entry, in the order
of the slice; and there is nothing to prune in it. -/
theorem pruneToGroundedEntries_spec (sliceEntries : List StoreEntryMetadata)
    (hids : (sliceEntries.map fun e => e.id).Nodup) :
    (∀ e ∈ sliceEntries, isReplayEntry e = false → e ∈ pruneToGroundedEntries sliceEntries)
      ∧ IsGreatest {grounded | SelfGrounded sliceEntries grounded}
        {id | ∃ e ∈ pruneToGroundedEntries sliceEntries, isReplayEntry e = true ∧ e.id = id}
      ∧ (pruneToGroundedEntries sliceEntries).Sublist sliceEntries
      ∧ pruneToGroundedEntries (pruneToGroundedEntries sliceEntries)
        = pruneToGroundedEntries sliceEntries := by
  refine ⟨fun e he => mem_pruneToGroundedEntries_of_not_replay hids he, ?_, List.filter_sublist,
    pruneToGroundedEntries_idem hids⟩
  have hkept : {id | ∃ e ∈ pruneToGroundedEntries sliceEntries, isReplayEntry e = true ∧ e.id = id}
      = {id | IsReplayId sliceEntries id ∧ ¬Ungrounded sliceEntries id} :=
    Set.ext fun id => isReplayId_pruneToGroundedEntries hids
  rw [hkept]
  exact isGreatest_selfGrounded

/-- A change whose parent came later, one that rests on it, and a snapshot of a purged entry with a
change on top. -/
def skewedSlice : List StoreEntryMetadata :=
  [.unwitnessed .docChange "child" "d" "h" ["late"] 1,
    .unwitnessed .docChange "grandchild" "d" "h" ["child"] 2,
    .unwitnessed .docSnapshot "snapshot" "d" "h" ["purged"] 3,
    .unwitnessed .docChange "on top" "d" "h" ["purged"] 4]

/-- The change and what rests on it are dropped. -/
theorem pruneToGroundedEntries_spec_skewedSlice :
    (pruneToGroundedEntries skewedSlice).map (fun e => e.id) = ["snapshot", "on top"]
      ∧ IsGreatest {grounded | SelfGrounded skewedSlice grounded}
        {id | ∃ e ∈ pruneToGroundedEntries skewedSlice, isReplayEntry e = true ∧ e.id = id} :=
  ⟨by decide +kernel, (pruneToGroundedEntries_spec skewedSlice (by decide +kernel)).2.1⟩

end MindooDB
