import MindooDB.Lib.BreadthFirst
import MindooDB.Lib.ReadyOrder
import MindooDB.Store.InMemoryQueries
import MindooDB.Store.OnDisk

/-!
# Store/DependencyOrder — in which order dependencies are resolved

`resolveDependencies` of the in-memory and of the on-disk store: a breadth-first walk from the start,
turned round.  Without options both return what is below the start, each id once
(`resolveDependencies_spec`).

A breadth-first walk meets ids in the order of their first paths, and an id may well be met before
another that depends on it: when it has a shorter path than that one, or one as long through an
earlier dependency.  `FirstPathsDescend` excludes that, and then, and only then, every id comes after
its dependencies.
-/

namespace MindooDB

open Async BreadthFirst LinkedMap List Option

/-! ## The on-disk loop -/

namespace Call

/-- The loop of `resolveDependencies`; `none` when the fuel ran out. -/
def resolveDependencies (cfg : OnDiskConfig) (startId : JSString) (options : DependencyOptions) :
    ℕ → List (JSString × ℕ) → LinkedSet JSString → List JSString → Call (Option (List JSString))
  | _, [], _, result => pure (some result.reverse)
  | 0, _ :: _, _, _ => pure none
  | fuel + 1, (id, depth) :: queue, visited, result =>
    if id ∈ visited then resolveDependencies cfg startId options fuel queue visited result
    else if options.maxDepth.any fun maxDepth => (depth : ℤ) > maxDepth then
      resolveDependencies cfg startId options fuel queue (visited.add id) result
    else do
      let entry ← readMetadataById cfg id []
      match entry with
      | none => resolveDependencies cfg startId options fuel queue (visited.add id) result
      | some entry =>
        if options.stopAtEntryType = some entry.entryType ∧ id ≠ startId then
          resolveDependencies cfg startId options fuel queue (visited.add id) (result ++ [id])
        else
          resolveDependencies cfg startId options fuel
            (queue ++ (entry.dependencyIds.filter fun depId => depId ∉ visited.add id).map
              fun depId => (depId, depth + 1))
            (visited.add id)
            (if id ≠ startId ∨ options.includeStart then result ++ [id] else result)

end Call

/-- The metadata that `readMetadataById` reads. -/
def OnDiskStore.metadataById (cfg : OnDiskConfig) (w : OnDiskStore) :
    LinkedMap JSString StoreEntryMetadata :=
  if cfg.indexingEnabled then w.memory.entries else w.disk.entryFiles

theorem alone_readMetadataById (cfg : OnDiskConfig) (env : DiskChoice) (w : OnDiskStore)
    (id : JSString) (records : List MetadataSegmentRecord) :
    alone env (Call.readMetadataById cfg id records) w
      = some ((w.metadataById cfg).get? id, w) := by
  rw [Call.readMetadataById, OnDiskStore.metadataById]
  split
  · rfl
  · rw [Call.fileExists, Call.look, alone_bind]
    simp only [atomic, alone, if_true, bind_some]
    cases hget : w.disk.entryFiles.get? id with
    | none =>
      have hhas : w.disk.entryFiles.has id = false := by simp [hget]
      simp [hhas]
    | some existing =>
      have hhas : w.disk.entryFiles.has id = true := has_iff.mpr ⟨existing, hget⟩
      simp [hhas, orThrow, alone, hget]

/-- **Left alone, the on-disk loop is the in-memory one** over the metadata it reads. -/
theorem alone_resolveDependencies (cfg : OnDiskConfig) (env : DiskChoice) (w : OnDiskStore)
    (startId : JSString) (options : DependencyOptions) (fuel : ℕ) (queue : List (JSString × ℕ))
    (visited : LinkedSet JSString) (result : List JSString) :
    alone env (Call.resolveDependencies cfg startId options fuel queue visited result) w
      = some ((resolveLoop (w.metadataById cfg) startId options fuel queue visited result).map
        List.reverse, w) := by
  induction fuel generalizing queue visited result with
  | zero => cases queue <;> rfl
  | succ fuel ih =>
    rcases queue with _ | ⟨⟨id, depth⟩, queue⟩
    · rfl
    rw [Call.resolveDependencies, resolveLoop]
    split
    · exact ih _ _ _
    split
    · exact ih _ _ _
    rw [alone_bind, alone_readMetadataById, bind_some]
    cases (w.metadataById cfg).get? id with
    | none => exact ih _ _ _
    | some entry =>
      simp only
      split
      · exact ih _ _ _
      · exact ih _ _ _

/-! ## The order -/

section Order

variable (entries : LinkedMap JSString StoreEntryMetadata) (startId : JSString)

/-- An id that is below the start. -/
def BelowStart (id : JSString) : Prop :=
  Relation.ReflTransGen (fun id dep => dep ∈ dependencyIdsOf entries id) startId id

/-- **No id comes before one of its dependencies.** -/
def DependencyFirst (result : List JSString) : Prop :=
  result.Pairwise fun id later => later ∉ dependencyIdsOf entries id

/-- **Each id has a path from the start before all paths to its dependencies**: shorter, or as long
and through an earlier dependency where they part. -/
def FirstPathsDescend : Prop :=
  ∀ id dep, BelowStart entries startId id → dep ∈ dependencyIdsOf entries id →
    entries.has dep = true → FirstBefore (dependencyIdsOf entries) startId id dep

variable {entries startId}

theorem has_of_mem_dependencyIdsOf {id dep : JSString} (h : dep ∈ dependencyIdsOf entries id) :
    entries.has id = true := by
  rw [dependencyIdsOf] at h
  cases hget : entries.get? id with
  | none => simp [hget] at h
  | some entry => exact has_iff.mpr ⟨entry, hget⟩

variable (entries startId) in
/-- Without options the loop is a breadth-first walk that keeps the ids that are there. -/
theorem resolveLoop_eq_traverse (fuel : ℕ) (queue : List (JSString × ℕ))
    (visited : LinkedSet JSString) :
    resolveLoop entries startId {} fuel queue visited (visited.toList.filter entries.has)
      = (BreadthFirst.traverse (dependencyIdsOf entries) fuel (queue.map Prod.fst) visited).map
        fun seen => seen.toList.filter entries.has := by
  induction fuel generalizing queue visited with
  | zero => cases queue <;> rfl
  | succ fuel ih =>
    rcases queue with _ | ⟨⟨id, depth⟩, queue⟩
    · rfl
    rw [resolveLoop, map_cons, BreadthFirst.traverse]
    split
    · exact ih queue visited
    rename_i hnew
    have hadded : (visited.add id).toList.filter entries.has
        = visited.toList.filter entries.has ++ [id].filter entries.has := by
      rw [LinkedSet.toList_add, if_neg hnew, filter_append]
    cases hget : entries.get? id with
    | none =>
      have hhas : entries.has id = false := has_eq_false_iff.mpr hget
      have hnone : dependencyIdsOf entries id = [] := by
        rw [dependencyIdsOf, hget]
        rfl
      have hrest := ih queue (visited.add id)
      rw [hadded, filter_singleton, hhas, cond_false, append_nil] at hrest
      simpa [hnone] using hrest
    | some entry =>
      have hhas : entries.has id = true := has_iff.mpr ⟨entry, hget⟩
      have hdeps : dependencyIdsOf entries id = entry.dependencyIds := by
        rw [dependencyIdsOf, hget]
        rfl
      have hrest := ih (queue ++ (entry.dependencyIds.filter fun depId => depId ∉ visited.add id).map
        fun depId => (depId, depth + 1)) (visited.add id)
      rw [hadded, filter_singleton, hhas, cond_true] at hrest
      simpa [hdeps, Function.comp_def] using hrest

variable (entries startId) in
/-- The result without options. -/
theorem exists_resolveDependencies : ∃ seen : LinkedSet JSString,
    resolveDependencies entries startId {} = some (seen.toList.filter entries.has).reverse ∧
      BreadthFirst.traverse (dependencyIdsOf entries) (resolveRounds entries) [startId] ∅
        = some seen := by
  have hloop := resolveLoop_eq_traverse entries startId (resolveRounds entries) [(startId, 0)] ∅
  obtain ⟨result, hresult⟩ : ∃ result, resolveDependencies entries startId {} = some result :=
    isSome_iff_exists.mp (isSome_resolveDependencies startId {})
  rw [resolveDependencies] at hresult ⊢
  obtain ⟨found, hfound, rfl⟩ := map_eq_some_iff.mp hresult
  rw [LinkedSet.toList_empty, filter_nil, hfound] at hloop
  obtain ⟨seen, hseen, rfl⟩ := map_eq_some_iff.mp hloop.symm
  exact ⟨seen, by rw [hfound]; rfl, hseen⟩

/-- **When the dependencies come first.** -/
theorem dependencyFirst_iff (hacyclic : ReadyOrder.Acyclic fun id dep => dep ∈ dependencyIdsOf entries id)
    {seen : LinkedSet JSString} {fuel : ℕ}
    (hseen : BreadthFirst.traverse (dependencyIdsOf entries) fuel [startId] ∅ = some seen) :
    DependencyFirst entries (seen.toList.filter entries.has).reverse
      ↔ FirstPathsDescend entries startId := by
  rw [DependencyFirst, pairwise_reverse, pairwise_filter, pairwise_traverse_iff hseen]
  constructor
  · intro h id dep hid hdep hhas
    have hdep' : BelowStart entries startId dep := hid.tail hdep
    have hne : id ≠ dep := by
      rintro rfl
      exact hacyclic id (.single hdep)
    refine (firstBefore_or hid hdep' hne).resolve_right fun hback => ?_
    exact h dep id hback hhas (has_of_mem_dependencyIdsOf hdep) hdep
  · intro h dep id hfirst hhas _ hdep
    obtain ⟨p, hp⟩ := hfirst.1
    exact (h id dep (exists_pathEnd_iff.mp ⟨p, hp⟩) hdep hhas).asymm hfirst

end Order

/-- **What resolving dependencies gives**: what is there of what is below the start, each id once, in
both stores; dependencies first exactly when the first paths descend. -/
theorem resolveDependencies_spec (entries : LinkedMap JSString StoreEntryMetadata)
    (hacyclic : ReadyOrder.Acyclic fun id dep => dep ∈ dependencyIdsOf entries id)
    (startId : JSString) :
    ∃ result : List JSString,
      (∀ s : InMemoryStore, s.entries = entries →
        resolveDependencies s.entries startId {} = some result) ∧
      (∀ (cfg : OnDiskConfig) (env : DiskChoice) (w : OnDiskStore), w.metadataById cfg = entries →
        alone env (Call.resolveDependencies cfg startId {} (resolveRounds entries)
          [(startId, 0)] ∅ []) w = some (some result, w)) ∧
      result.Nodup ∧
      (∀ id, id ∈ result ↔ BelowStart entries startId id ∧ entries.has id = true) ∧
      (DependencyFirst entries result ↔ FirstPathsDescend entries startId) := by
  obtain ⟨seen, hresult, hseen⟩ := exists_resolveDependencies entries startId
  refine ⟨_, ?_, ?_, ?_, ?_, dependencyFirst_iff hacyclic hseen⟩
  · rintro s rfl
    exact hresult
  · rintro cfg env w rfl
    rw [alone_resolveDependencies, ← resolveDependencies, hresult]
  · exact nodup_reverse.mpr (seen.nodup.filter _)
  · intro id
    rw [mem_reverse, mem_filter, ← LinkedSet.mem_def, mem_traverse_iff hseen]
    rfl

/-- A merge of two branches of a fork, one of them an entry longer. -/
def forkedEntries : LinkedMap JSString StoreEntryMetadata :=
  ofList ([.unwitnessed .docCreate "f" "d" "h" [] 0,
    .unwitnessed .docChange "a" "d" "h" ["f"] 1, .unwitnessed .docChange "b1" "d" "h" ["f"] 2,
    .unwitnessed .docChange "b2" "d" "h" ["b1"] 3,
    .unwitnessed .docChange "m" "d" "h" ["a", "b2"] 4].map fun e => (e.id, e))

theorem acyclic_forkedEntries :
    ReadyOrder.Acyclic fun id dep => dep ∈ dependencyIdsOf forkedEntries id := by
  refine ReadyOrder.acyclic_of_rank
    (fun id => (["f", "a", "b1", "b2", "m"] : List JSString).idxOf id) fun id dep hdep => ?_
  have hranks : ∀ id ∈ forkedEntries.keys, ∀ dep ∈ dependencyIdsOf forkedEntries id,
      (["f", "a", "b1", "b2", "m"] : List JSString).idxOf dep
        < (["f", "a", "b1", "b2", "m"] : List JSString).idxOf id := by
    decide +kernel
  exact hranks id (mem_keys_iff_has.mpr (has_of_mem_dependencyIdsOf hdep)) dep hdep

/-- The order the walk gives there. -/
def forkedOrder : List JSString := ["b1", "f", "b2", "a", "m"]

theorem not_dependencyFirst_forkedOrder : ¬DependencyFirst forkedEntries forkedOrder := by
  intro h
  exact (pairwise_cons.mp h).1 "f" (by decide) (by decide +kernel)

/-- **The longer branch comes before the fork it starts from.** -/
theorem resolveDependencies_forkedEntries :
    (ReadyOrder.Acyclic fun id dep => dep ∈ dependencyIdsOf forkedEntries id) ∧
      resolveDependencies forkedEntries "m" {} = some forkedOrder ∧
      ¬DependencyFirst forkedEntries forkedOrder :=
  ⟨acyclic_forkedEntries, by decide +kernel, not_dependencyFirst_forkedOrder⟩

/-- There the first paths do not descend. -/
theorem resolveDependencies_spec_forkedEntries : ¬FirstPathsDescend forkedEntries "m" := by
  obtain ⟨result, hmemory, -, -, -, hfirst⟩ :=
    resolveDependencies_spec forkedEntries acyclic_forkedEntries "m"
  have hresult : some forkedOrder = some result := by
    rw [← hmemory { entries := forkedEntries, storeEpoch := "e" } rfl]
    decide +kernel
  rw [← hfirst, ← some.inj hresult]
  exact not_dependencyFirst_forkedOrder

end MindooDB
