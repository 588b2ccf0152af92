import MindooDB.Planner.Coverage
import MindooDB.Planner.Topological

/-!
# Planner/Plan — what a plan contains, and what it depends on

The snapshot choice takes the first entry of maximal `rank`: coverage first, then `createdAt`.  The
replay order is the greedy order of the entries that snapshot does not cover.  Everything but the
word *first* is independent of the order of the entries, so a plan is a function of the **set** of
entries exactly when no two snapshots tie for the best rank.
-/

namespace MindooDB

open List

variable (entries : List StoreEntryMetadata)

/-- The snapshots of the list. -/
abbrev snapshotsOf : List StoreEntryMetadata := entries.filter fun e => e.entryType = .docSnapshot

/-- The snapshot the planner settles on. -/
def chosenSnapshot : Option StoreEntryMetadata :=
  if (entries.filter isReplayEntry).length = 0 then newestSnapshot (snapshotsOf entries)
  else
    ((snapshotsOf entries).foldl (considerSnapshot (coveredLatestCount
      (buildLatestStateReachability (entries.filter isReplayEntry)).2 (replayMap entries)))
      (none, -1)).1

/-- The entries of the latest state the chosen snapshot leaves to be replayed. -/
def uncoveredIds : LinkedSet JSString :=
  LinkedSet.ofList ((buildLatestStateReachability (entries.filter isReplayEntry)).2.toList.filter
    fun id => id ∉ coveredBySnapshot (chosenSnapshot entries) (replayMap entries))

/-- **How good a snapshot is**: its coverage, then its date. -/
noncomputable def rank (snapshot : StoreEntryMetadata) : ℤ ×ₗ ℤ :=
  toLex ((coverage entries snapshot : ℤ), snapshot.createdAt)

/-- Covered by the chosen snapshot, if there is one. -/
def CoveredBy (chosen : Option StoreEntryMetadata) (id : JSString) : Prop :=
  ∃ s, chosen = some s ∧ Covers entries s id

variable {entries}

/-! ## The snapshot choice -/

theorem snapshotEntryId_eq (docId : JSString) (includeDiagnostics : Bool) :
    (computeDocumentMaterializationPlan docId entries includeDiagnostics).snapshotEntryId
      = (chosenSnapshot entries).map fun s => s.id := by
  unfold computeDocumentMaterializationPlan chosenSnapshot
  simp only
  split <;> rfl

/-- The choice so far, as the loop carries it. -/
def scored (score : StoreEntryMetadata → ℤ) : Option StoreEntryMetadata → Option StoreEntryMetadata × ℤ
  | none => (none, -1)
  | some s => (some s, score s)

theorem considerSnapshot_none (score : StoreEntryMetadata → ℤ) (c : ℤ) (s : StoreEntryMetadata) :
    considerSnapshot score (none, c) s = (some s, score s) := by
  unfold considerSnapshot
  by_cases h : score s > c <;> simp [h]

theorem considerSnapshot_some (score : StoreEntryMetadata → ℤ) (b s : StoreEntryMetadata) :
    considerSnapshot score (some b, score b) s
      = if toLex (score b, b.createdAt) < toLex (score s, s.createdAt) then (some s, score s)
        else (some b, score b) := by
  have hlt : toLex (score b, b.createdAt) < toLex (score s, s.createdAt)
      ↔ score s > score b ∨ score s = score b ∧ s.createdAt > b.createdAt := by
    rw [Prod.Lex.toLex_lt_toLex]
    simp [eq_comm]
  unfold considerSnapshot
  by_cases h : score s > score b ∨ score s = score b ∧ s.createdAt > b.createdAt <;> simp [hlt, h]

/-- The loop keeps the first snapshot of maximal score and date. -/
theorem foldl_considerSnapshot (score : StoreEntryMetadata → ℤ)
    (l : List StoreEntryMetadata) :
    l.foldl (considerSnapshot score) (none, -1)
      = scored score (l.argmax fun s => toLex (score s, s.createdAt)) := by
  have hstep : ∀ (o : Option StoreEntryMetadata) (s : StoreEntryMetadata),
      considerSnapshot score (scored score o) s = scored score (List.argAux
        (fun b c => toLex (score c, c.createdAt) < toLex (score b, b.createdAt)) o s) := by
    intro o s
    cases o with
    | none => exact considerSnapshot_none score (-1) s
    | some b =>
      rw [scored, considerSnapshot_some, List.argAux]
      exact (apply_ite (scored score) _ (some s) (some b)).symm
  have hrun : ∀ (l : List StoreEntryMetadata) (o : Option StoreEntryMetadata),
      l.foldl (considerSnapshot score) (scored score o) = scored score (l.foldl (List.argAux
        (fun b c => toLex (score c, c.createdAt) < toLex (score b, b.createdAt))) o) := by
    intro l
    induction l with
    | nil => exact fun _ => rfl
    | cons s l ih => exact fun o => by rw [foldl_cons, hstep, ih, foldl_cons]
  exact hrun l none

theorem newestSnapshot_eq (l : List StoreEntryMetadata) (c : ℤ) :
    newestSnapshot l = l.argmax fun s => toLex (c, s.createdAt) := by
  have hrun : ∀ (l : List StoreEntryMetadata) (a : StoreEntryMetadata),
      some (l.foldl (fun a b => if b.createdAt > a.createdAt then b else a) a) = l.foldl (List.argAux
        (fun x y => toLex (c, y.createdAt) < toLex (c, x.createdAt))) (some a) := by
    intro l
    induction l with
    | nil => exact fun _ => rfl
    | cons b l ih =>
      intro a
      have hlt : toLex (c, a.createdAt) < toLex (c, b.createdAt) ↔ b.createdAt > a.createdAt := by
        rw [Prod.Lex.toLex_lt_toLex]
        simp
      simp only [foldl_cons, ih, List.argAux, hlt]
      split <;> rfl
  cases l with
  | nil => rfl
  | cons a l => exact hrun l a

section Chosen

variable (hids : (entries.map fun e => e.id).Nodup)

include hids

/-- **The planner chooses the first snapshot of maximal rank.** -/
theorem chosenSnapshot_eq : chosenSnapshot entries = (snapshotsOf entries).argmax (rank entries) := by
  unfold chosenSnapshot
  split
  · rename_i hempty
    have hnone : ∀ id, ¬ IsReplayId entries id := by
      rintro id ⟨e, he, hr, -⟩
      have hmem : e ∈ entries.filter isReplayEntry := mem_filter.mpr ⟨he, hr⟩
      rw [length_eq_zero_iff.mp hempty] at hmem
      simp at hmem
    have hrank : rank entries = fun s => toLex ((0 : ℤ), s.createdAt) := by
      funext s
      have hset : {id | IsLatest entries id ∧ Covers entries s id} = ∅ :=
        Set.eq_empty_iff_forall_notMem.mpr fun id h => hnone id h.1.isReplayId
      rw [rank, coverage, hset, Set.ncard_empty, Nat.cast_zero]
    rw [hrank]
    exact newestSnapshot_eq _ 0
  · have hscore : coveredLatestCount
        (buildLatestStateReachability (entries.filter isReplayEntry)).2 (replayMap entries)
          = fun s => (coverage entries s : ℤ) := by
      funext s
      exact coveredLatestCount_eq hids s
    rw [hscore, foldl_considerSnapshot]
    exact (show ∀ o, (scored _ o).1 = o from fun o => by cases o <;> rfl) _

theorem mem_coveredBySnapshot_iff {chosen : Option StoreEntryMetadata} {id : JSString} :
    id ∈ coveredBySnapshot chosen (replayMap entries) ↔ CoveredBy entries chosen id := by
  cases chosen with
  | none => simp [coveredBySnapshot, CoveredBy]
  | some s => simp [mem_coveredBySnapshot hids, CoveredBy]

theorem mem_uncoveredIds {id : JSString} :
    id ∈ uncoveredIds entries
      ↔ IsLatest entries id ∧ ¬ CoveredBy entries (chosenSnapshot entries) id := by
  rw [uncoveredIds, LinkedSet.mem_ofList, mem_filter, ← LinkedSet.mem_def,
    mem_latestReachable hids, decide_eq_true_eq, mem_coveredBySnapshot_iff hids]

/-- The replay order is the order of the uncovered ids, with or without entries to replay. -/
theorem entryIdsToApply_eq (docId : JSString) (includeDiagnostics : Bool) :
    (computeDocumentMaterializationPlan docId entries includeDiagnostics).entryIdsToApply
      = topologicalByDependencies (uncoveredIds entries) (replayMap entries) := by
  unfold computeDocumentMaterializationPlan
  simp only
  split
  · rename_i hempty
    have hnone : ∀ id, id ∉ uncoveredIds entries := by
      intro id hid
      obtain ⟨e, he, hr, -⟩ := ((mem_uncoveredIds hids).mp hid).1.isReplayId
      have hmem : e ∈ entries.filter isReplayEntry := mem_filter.mpr ⟨he, hr⟩
      rw [length_eq_zero_iff.mp hempty] at hmem
      simp at hmem
    obtain ⟨l, hgreedy, heq⟩ := topologicalByDependencies_eq (uncoveredIds entries) (replayMap entries)
    have hl : l = [] := eq_nil_iff_forall_not_mem.mpr fun x hx => hnone x (hgreedy.mem hx).1
    have hsize : (uncoveredIds entries).toList = [] := eq_nil_iff_forall_not_mem.mpr hnone
    simp [heq, hl, hsize, LinkedSet.size]
  · rename_i hne
    rw [uncoveredIds, chosenSnapshot, if_neg hne]

end Chosen

/-! ## What a plan contains -/

/-- How many replay entries a snapshot covers. -/
noncomputable def coveredCount (entries : List StoreEntryMetadata) (snapshot : StoreEntryMetadata) : ℕ :=
  {id | Covers entries snapshot id}.ncard

/-- Without cycles all of the coverage counts. -/
theorem coverage_of_acyclic (hacyclic : ReadyOrder.Acyclic (DependsOn entries))
    (snapshot : StoreEntryMetadata) : coverage entries snapshot = coveredCount entries snapshot := by
  rw [coverage, coveredCount]
  congr 1
  ext id
  exact ⟨And.right, fun h => ⟨isLatest_of_acyclic hacyclic h.isReplayId, h⟩⟩

/-- What is still to be replayed needs nothing but replay entries. -/
theorem dependsOn_of_needs (hids : (entries.map fun e => e.id).Nodup) {x y : JSString}
    (h : Needs (replayMap entries) x y) (hy : IsReplayId entries y) : DependsOn entries x y :=
  (dependsOn_iff hids).mpr ⟨h, (has_replayMap hids).mpr hy⟩

/-- **A plan replays exactly what its snapshot does not cover, dependencies first**, and no snapshot
covers more than the one it names. -/
theorem computeDocumentMaterializationPlan_spec (docId : JSString)
    (entries : List StoreEntryMetadata) (includeDiagnostics : Bool)
    (hids : (entries.map fun e => e.id).Nodup)
    (hacyclic : ReadyOrder.Acyclic (DependsOn entries)) :
    let plan := computeDocumentMaterializationPlan docId entries includeDiagnostics
    ∃ chosen : Option StoreEntryMetadata, plan.snapshotEntryId = chosen.map (fun s => s.id) ∧
      (chosen = none → snapshotsOf entries = []) ∧
      (∀ s, chosen = some s → s ∈ snapshotsOf entries ∧
        ∀ t ∈ snapshotsOf entries, coveredCount entries t ≤ coveredCount entries s) ∧
      plan.entryIdsToApply.Nodup ∧
      (∀ id, id ∈ plan.entryIdsToApply ↔ IsReplayId entries id ∧ ¬ CoveredBy entries chosen id) ∧
      ∀ before id after, plan.entryIdsToApply = before ++ id :: after →
        ∀ dep, DependsOn entries id dep → CoveredBy entries chosen dep ∨ dep ∈ before := by
  have huncovered : ∀ id, id ∈ uncoveredIds entries
      ↔ IsReplayId entries id ∧ ¬ CoveredBy entries (chosenSnapshot entries) id := fun id => by
    rw [mem_uncoveredIds hids]
    exact and_congr_left' ⟨IsLatest.isReplayId, isLatest_of_acyclic hacyclic⟩
  have huncoveredAcyclic :
      ReadyOrder.Acyclic fun x y => Needs (replayMap entries) x y ∧ y ∈ uncoveredIds entries :=
    hacyclic.mono fun x y h => dependsOn_of_needs hids h.1 ((huncovered y).mp h.2).1
  obtain ⟨hgreedy, hmem⟩ := topologicalByDependencies_of_acyclic huncoveredAcyclic
  have hchosen := chosenSnapshot_eq hids
  intro plan
  have happly : plan.entryIdsToApply
      = topologicalByDependencies (uncoveredIds entries) (replayMap entries) :=
    entryIdsToApply_eq hids docId includeDiagnostics
  refine ⟨chosenSnapshot entries, snapshotEntryId_eq docId includeDiagnostics, fun hnone => ?_,
    fun s hs => ?_, happly ▸ hgreedy.nodup, fun id => ?_, fun before id after hsplit dep hdep => ?_⟩
  · rw [hchosen] at hnone
    exact argmax_eq_none.mp hnone
  · rw [hchosen] at hs
    refine ⟨argmax_mem hs, fun t ht => ?_⟩
    have hle : rank entries t ≤ rank entries s := le_of_mem_argmax ht hs
    rw [rank, rank, Prod.Lex.toLex_le_toLex, coverage_of_acyclic hacyclic,
      coverage_of_acyclic hacyclic] at hle
    rcases hle with hlt | ⟨heq, -⟩
    · exact Int.ofNat_le.mp hlt.le
    · exact Int.ofNat_le.mp heq.le
  · rw [happly, hmem, huncovered]
  · by_cases hcov : CoveredBy entries (chosenSnapshot entries) dep
    · exact Or.inl hcov
    · have hin : dep ∈ uncoveredIds entries := (huncovered dep).mpr ⟨hdep.isReplayId, hcov⟩
      have hneeds : Needs (replayMap entries) id dep := ((dependsOn_iff hids).mp hdep).1
      rw [happly] at hsplit
      exact Or.inr ((hgreedy.dependency_before hsplit hin hneeds).resolve_left (by simp))

/-- A diamond with a snapshot of one side. -/
def diamondEntries : List StoreEntryMetadata :=
  [.unwitnessed .docChange "join" "d" "h" ["left", "right", "left"] 3,
    .unwitnessed .docChange "right" "d" "h" ["root", "elsewhere"] 2,
    .unwitnessed .docSnapshot "snap" "d" "h" ["left"] 4,
    .unwitnessed .docChange "left" "d" "h" ["root"] 2,
    .unwitnessed .docCreate "root" "d" "h" [] 1]

theorem acyclic_diamondEntries : ReadyOrder.Acyclic (DependsOn diamondEntries) := by
  refine ReadyOrder.acyclic_of_rank (fun id =>
    ([("root" : JSString), "left", "right", "join"].idxOf id)) fun x y h => ?_
  obtain ⟨⟨e, he, -, rfl, hdep⟩, ⟨e', he', hr, rfl⟩⟩ := h
  revert e' e
  decide

theorem computeDocumentMaterializationPlan_spec_diamond :
    ∃ chosen : Option StoreEntryMetadata,
      (computeDocumentMaterializationPlan "d" diamondEntries false).snapshotEntryId
        = chosen.map fun s => s.id :=
  (computeDocumentMaterializationPlan_spec "d" diamondEntries false (by decide)
    acyclic_diamondEntries).imp fun _ h => h.1

/-! ## What a plan depends on -/

/-- The two things a plan tells a store to do. -/
def SamePlan (p q : DocumentMaterializationPlan) : Prop :=
  p.snapshotEntryId = q.snapshotEntryId ∧ p.entryIdsToApply = q.entryIdsToApply

instance (p q : DocumentMaterializationPlan) : Decidable (SamePlan p q) :=
  inferInstanceAs (Decidable (_ ∧ _))

/-- A snapshot no other beats. -/
def IsBest (entries : List StoreEntryMetadata) (s : StoreEntryMetadata) : Prop :=
  s ∈ snapshotsOf entries ∧ ∀ t ∈ snapshotsOf entries, rank entries t ≤ rank entries s

/-- No two snapshots tie for the best rank. -/
def NoTie (entries : List StoreEntryMetadata) : Prop :=
  ∀ s t, IsBest entries s → IsBest entries t → s = t

section Congr

variable {entries' : List StoreEntryMetadata} (hmem : ∀ e, e ∈ entries' ↔ e ∈ entries)

include hmem

theorem isReplayId_congr : IsReplayId entries' = IsReplayId entries := by
  funext id
  simp only [IsReplayId, hmem]

theorem dependsOn_congr : DependsOn entries' = DependsOn entries := by
  funext id dep
  simp only [DependsOn, hmem, isReplayId_congr hmem]

theorem isLatest_congr : IsLatest entries' = IsLatest entries := by
  funext id
  simp only [IsLatest, IsHead, isReplayId_congr hmem, dependsOn_congr hmem]

theorem covers_congr : Covers entries' = Covers entries := by
  funext s id
  simp only [Covers, isReplayId_congr hmem, dependsOn_congr hmem]

theorem rank_congr : rank entries' = rank entries := by
  funext s
  simp only [rank, coverage, isLatest_congr hmem, covers_congr hmem]

end Congr

/-- Without a tie the choice does not see the order of the entries. -/
theorem chosenSnapshot_congr {entries' : List StoreEntryMetadata} (hperm : entries'.Perm entries)
    (hids : (entries.map fun e => e.id).Nodup) (hnotie : NoTie entries) :
    chosenSnapshot entries' = chosenSnapshot entries := by
  have hids' : (entries'.map fun e => e.id).Nodup := (hperm.map _).nodup_iff.mpr hids
  have hsnaps : (snapshotsOf entries').Perm (snapshotsOf entries) := hperm.filter _
  rw [chosenSnapshot_eq hids, chosenSnapshot_eq hids', rank_congr fun e => hperm.mem_iff]
  rcases hs : (snapshotsOf entries').argmax (rank entries) with _ | s
  · rw [argmax_eq_none] at hs
    rw [hs] at hsnaps
    rw [← hsnaps.nil_eq]
    rfl
  rcases ht : (snapshotsOf entries).argmax (rank entries) with _ | t
  · rw [argmax_eq_none] at ht
    rw [ht] at hsnaps
    rw [hsnaps.eq_nil] at hs
    simp at hs
  · have hbest : IsBest entries s := ⟨hsnaps.mem_iff.mp (argmax_mem hs), fun u hu =>
      le_of_mem_argmax (hsnaps.mem_iff.mpr hu) hs⟩
    have hbest' : IsBest entries t := ⟨argmax_mem ht, fun u hu => le_of_mem_argmax hu ht⟩
    rw [hnotie s t hbest hbest']

/-- A best snapshot that comes first is chosen. -/
theorem chosenSnapshot_cons (s : StoreEntryMetadata) {rest : List StoreEntryMetadata}
    (hids : ((s :: rest).map fun e => e.id).Nodup) (hbest : IsBest (s :: rest) s) :
    chosenSnapshot (s :: rest) = some s := by
  have hsnap : s.entryType = .docSnapshot := by simpa using (mem_filter.mp hbest.1).2
  rw [chosenSnapshot_eq hids, argmax_eq_some_iff]
  refine ⟨hbest.1, hbest.2, fun t _ _ => ?_⟩
  rw [snapshotsOf, filter_cons_of_pos (by simpa using hsnap), idxOf_cons_self]
  exact Nat.zero_le _

/-- **Two stores with the same entries compute the same plan exactly when no two snapshots tie**
for the best coverage and date. -/
theorem samePlan_perm_iff (docId : JSString) (entries : List StoreEntryMetadata)
    (includeDiagnostics : Bool) (hids : (entries.map fun e => e.id).Nodup) :
    (∀ entries' : List StoreEntryMetadata, entries'.Perm entries →
        SamePlan (computeDocumentMaterializationPlan docId entries' includeDiagnostics)
          (computeDocumentMaterializationPlan docId entries includeDiagnostics))
      ↔ NoTie entries := by
  constructor
  · intro hsame s t hs ht
    -- Each of the two is chosen when it comes first.
    have hfirst : ∀ u, IsBest entries u →
        (chosenSnapshot entries).map (fun e => e.id) = some u.id := by
      intro u hu
      have hmem : u ∈ entries := mem_of_mem_filter hu.1
      have hperm : (u :: entries.erase u).Perm entries := (perm_cons_erase hmem).symm
      have hbest : IsBest (u :: entries.erase u) u := by
        have hsnaps : (snapshotsOf (u :: entries.erase u)).Perm (snapshotsOf entries) := hperm.filter _
        refine ⟨hsnaps.mem_iff.mpr hu.1, fun t ht => ?_⟩
        rw [rank_congr fun e => hperm.mem_iff]
        exact hu.2 t (hsnaps.mem_iff.mp ht)
      have hplan := (hsame _ hperm).1
      rw [snapshotEntryId_eq, snapshotEntryId_eq,
        chosenSnapshot_cons u ((hperm.map _).nodup_iff.mpr hids) hbest] at hplan
      exact hplan.symm
    have hid : s.id = t.id := Option.some.inj ((hfirst s hs).symm.trans (hfirst t ht))
    exact inj_on_of_nodup_map hids (mem_of_mem_filter hs.1) (mem_of_mem_filter ht.1) hid
  · intro hnotie entries' hperm
    have hids' : (entries'.map fun e => e.id).Nodup := (hperm.map _).nodup_iff.mpr hids
    have hmem : ∀ e, e ∈ entries' ↔ e ∈ entries := fun e => hperm.mem_iff
    have hchosen := chosenSnapshot_congr hperm hids hnotie
    refine ⟨by rw [snapshotEntryId_eq, snapshotEntryId_eq, hchosen], ?_⟩
    rw [entryIdsToApply_eq hids', entryIdsToApply_eq hids]
    refine topologicalByDependencies_congr (fun id => ?_) fun x y => ?_
    · rw [mem_uncoveredIds hids', mem_uncoveredIds hids, hchosen, isLatest_congr hmem]
      simp only [CoveredBy, covers_congr hmem]
    · rw [Needs, Needs, mem_dependenciesOf hids', mem_dependenciesOf hids]
      simp only [hmem]

/-- One change and two snapshots of it, taken in the same millisecond. -/
def tiedEntries : List StoreEntryMetadata :=
  [.unwitnessed .docCreate "change" "d" "h" [] 1, .unwitnessed .docSnapshot "s1" "d" "h" ["change"] 5,
    .unwitnessed .docSnapshot "s2" "d" "h" ["change"] 5]

theorem samePlan_perm_iff_tied : (tiedEntries.map fun e => e.id).Nodup ∧ ¬ NoTie tiedEntries := by
  refine ⟨by decide, fun hnotie => ?_⟩
  have hsame := (samePlan_perm_iff "d" tiedEntries false (by decide)).mpr hnotie
  exact absurd (hsame tiedEntries.reverse (reverse_perm _)) (by decide)

/-- **The plan can depend on the order of the entries.** -/
theorem not_samePlan_perm : ¬ ∀ (docId : JSString) (entries entries' : List StoreEntryMetadata),
    (entries.map fun e => e.id).Nodup → entries'.Perm entries →
      SamePlan (computeDocumentMaterializationPlan docId entries' false)
        (computeDocumentMaterializationPlan docId entries false) := by
  intro h
  exact absurd (h "d" tiedEntries tiedEntries.reverse (by decide) (reverse_perm _)) (by decide)

end MindooDB
