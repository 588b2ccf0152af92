import MindooDB.Lib.OrdersOn
import MindooDB.Store.DependencyOrder

/-!
# History/MergeBase — where conflicting heads parted

`computeConflictMergeBaseEntryId` of `BaseMindooDB.ts`.  The ancestors of all parents are
intersected, those that are proper ancestors of another are left out, and of the rest the youngest
is taken.  In an acyclic history that finds a deepest common ancestor whenever there is a common
one, and always the same one, whatever the order of the parents (`mergeBase_spec`).

An id without metadata is an ancestor too, with none of its own.  The collation behind
`localeCompare` is a parameter; it ties no two ids of a history, which are of ASCII characters.
-/

namespace MindooDB

open LinkedSet List ReadyOrder

/-! ## The code -/

section Code

variable (metadataById : LinkedMap JSString StoreEntryMetadata)

/-- `collectAncestors`, whose results are remembered. -/
def collectAncestors (startId : JSString) : LinkedSet JSString :=
  (BreadthFirst.traverse (dependencyIdsOf metadataById) (resolveRounds metadataById) [startId]
    ∅).getD ∅

/-- The loop over the parents; `none` where it returns `null`. -/
def intersectAncestors : Option (LinkedSet JSString) → List JSString → Option (LinkedSet JSString)
  | common, [] => common
  | common, parent :: parents =>
    let ancestors := collectAncestors metadataById parent
    let next := match common with
      | none => ancestors
      | some common => ⟨common.toList.filter (· ∈ ancestors), common.nodup.filter _⟩
    if next.size = 0 then none else intersectAncestors (some next) parents

def isProperAncestorOfAnother (common : LinkedSet JSString) : LinkedSet JSString :=
  common.toList.foldl (fun found id => found.addAll
    ((collectAncestors metadataById id).toList.filter fun ancestorId =>
      ancestorId ≠ id && ancestorId ∈ common)) ∅

/-- Those that are no ancestor of another. -/
def deepest (common : LinkedSet JSString) : List JSString :=
  common.toList.filter fun id => id ∉ isProperAncestorOfAnother metadataById common

/-- `metadataById.get(id)?.createdAt ?? 0`. -/
def createdAtOf (id : JSString) : ℤ := ((metadataById.get? id).map (·.createdAt)).getD 0

variable (localeCompare : JSString → JSString → ℤ)

/-- The comparator of the candidates: the youngest first. -/
def compareBases (a b : JSString) : ℤ :=
  if createdAtOf metadataById a ≠ createdAtOf metadataById b then
    createdAtOf metadataById b - createdAtOf metadataById a
  else localeCompare a b

/-- **The merge base** of some parents. -/
def computeConflictMergeBaseEntryId (parents : List JSString) : Option JSString :=
  match parents with
  | [] => none
  | [parent] => some parent
  | parents => (intersectAncestors metadataById none parents).bind fun common =>
    (sortBy (compareBases metadataById localeCompare) (deepest metadataById common)).head?

end Code

/-! ## Ancestors -/

section Ancestors

variable (metadataById : LinkedMap JSString StoreEntryMetadata)

/-- An id depends on another, directly or not. -/
def ProperAncestor (ancestorId id : JSString) : Prop :=
  Relation.TransGen (fun id dep => dep ∈ dependencyIdsOf metadataById id) id ancestorId

/-- **An ancestor of all parents**, each of which is an ancestor of itself. -/
def CommonAncestor (parents : List JSString) (id : JSString) : Prop :=
  ∀ parent ∈ parents, BelowStart metadataById parent id

variable {metadataById} {parents : List JSString} {id : JSString}

theorem mem_collectAncestors {startId : JSString} :
    id ∈ collectAncestors metadataById startId ↔ BelowStart metadataById startId id := by
  obtain ⟨seen, -, hseen⟩ := exists_resolveDependencies metadataById startId
  rw [collectAncestors, hseen, Option.getD_some]
  exact BreadthFirst.mem_traverse_iff hseen

theorem CommonAncestor.perm {parents' : List JSString} (hperm : parents.Perm parents') :
    CommonAncestor metadataById parents id ↔ CommonAncestor metadataById parents' id :=
  forall_congr' fun _ => by rw [hperm.mem_iff]

theorem CommonAncestor.append {done : List JSString} :
    CommonAncestor metadataById (done ++ parents) id
      ↔ CommonAncestor metadataById done id ∧ CommonAncestor metadataById parents id :=
  forall_mem_append

theorem CommonAncestor.singleton {parent : JSString} :
    CommonAncestor metadataById [parent] id ↔ BelowStart metadataById parent id :=
  forall_mem_singleton

/-- What the loop returns is right. -/
def IsIntersection (metadataById : LinkedMap JSString StoreEntryMetadata)
    (parents : List JSString) : Option (LinkedSet JSString) → Prop
  | none => ∀ id, ¬CommonAncestor metadataById parents id
  | some common => ∀ id, id ∈ common ↔ CommonAncestor metadataById parents id

/-- **The loop**, once it has intersected the ancestors of some parents. -/
theorem isIntersection_of_done {common : LinkedSet JSString} {done : List JSString}
    (hcommon : ∀ id, id ∈ common ↔ CommonAncestor metadataById done id) :
    IsIntersection metadataById (done ++ parents)
      (if common.size = 0 then none
        else intersectAncestors metadataById (some common) parents) := by
  induction parents generalizing common done with
  | nil =>
    rw [append_nil]
    split
    · rename_i hempty
      intro id hid
      rw [size_eq_zero_iff.mp hempty] at hcommon
      exact notMem_empty id ((hcommon id).mpr hid)
    · exact hcommon
  | cons parent parents ih =>
    split
    · rename_i hempty
      intro id hid
      rw [size_eq_zero_iff.mp hempty] at hcommon
      exact notMem_empty id ((hcommon id).mpr (CommonAncestor.append.mp hid).1)
    · rw [intersectAncestors, append_cons]
      refine ih fun id => ?_
      rw [CommonAncestor.append, CommonAncestor.singleton, ← hcommon, ← mem_collectAncestors,
        mem_def, mem_filter, decide_eq_true_eq]
      rfl

theorem isIntersection_intersectAncestors (parent : JSString) :
    IsIntersection metadataById (parent :: parents)
      (intersectAncestors metadataById none (parent :: parents)) :=
  isIntersection_of_done fun _ => mem_collectAncestors.trans CommonAncestor.singleton.symm

/-! ## The deepest -/

variable {common : LinkedSet JSString}

theorem mem_isProperAncestorOfAnother :
    id ∈ isProperAncestorOfAnother metadataById common ↔
      ∃ other ∈ common, id ≠ other ∧ id ∈ common ∧ BelowStart metadataById other id := by
  rw [isProperAncestorOfAnother, mem_foldl_addAll, or_iff_right (notMem_empty id)]
  refine exists_congr fun other => and_congr Iff.rfl ?_
  rw [mem_filter, ← mem_def, mem_collectAncestors, Bool.and_eq_true,
    decide_eq_true_eq, decide_eq_true_eq]
  tauto

section

variable (hacyclic : Acyclic fun id dep => dep ∈ dependencyIdsOf metadataById id)

include hacyclic

/-- In an acyclic history an ancestor other than the id itself is a proper one. -/
theorem properAncestor_iff {other : JSString} :
    ProperAncestor metadataById id other ↔ id ≠ other ∧ BelowStart metadataById other id := by
  constructor
  · intro h
    refine ⟨?_, h.to_reflTransGen⟩
    rintro rfl
    exact hacyclic id h
  · rintro ⟨hne, h⟩
    exact (Relation.reflTransGen_iff_eq_or_transGen.mp h).resolve_left hne

/-- **The deepest common ancestors** are those that no other one has above it. -/
theorem mem_deepest (hcommon : ∀ id, id ∈ common ↔ CommonAncestor metadataById parents id) :
    id ∈ deepest metadataById common ↔ CommonAncestor metadataById parents id ∧ ∀ other,
      CommonAncestor metadataById parents other → ¬ProperAncestor metadataById id other := by
  rw [deepest, mem_filter, ← mem_def, hcommon, decide_eq_true_eq, mem_isProperAncestorOfAnother]
  refine and_congr_right fun hid => ?_
  push Not
  simp only [properAncestor_iff hacyclic, hcommon, hid, not_and, true_implies]

/-- There is a deepest one when there is one. -/
theorem exists_mem_deepest (hcommon : ∀ id, id ∈ common ↔ CommonAncestor metadataById parents id)
    (hid : CommonAncestor metadataById parents id) : ∃ id, id ∈ deepest metadataById common := by
  have hup : Acyclic fun id other => ProperAncestor metadataById id other := by
    have htrans : ∀ {id other}, Relation.TransGen (ProperAncestor metadataById) id other →
        ProperAncestor metadataById id other := fun {id other} h => by
      induction h with
      | single h => exact h
      | tail _ h ih => exact Relation.TransGen.trans h ih
    exact fun id h => hacyclic id (htrans h)
  have hfinite : {id | CommonAncestor metadataById parents id}.Finite :=
    common.toList.finite_toSet.subset fun id hid => (hcommon id).mpr hid
  obtain ⟨base, hbase, hmin⟩ := exists_minimal hfinite hup ⟨id, hid⟩
  exact ⟨base, (mem_deepest hacyclic hcommon).mpr ⟨hbase, hmin⟩⟩

end

end Ancestors

/-! ## The merge base -/

section Base

variable (metadataById : LinkedMap JSString StoreEntryMetadata)

/-- The ids that some parents go back to. -/
def idsBelow (parents : List JSString) : Set JSString :=
  {id | ∃ parent ∈ parents, BelowStart metadataById parent id}

variable {metadataById} {localeCompare : JSString → JSString → ℤ} {parents parents' : List JSString}
  {common common' : LinkedSet JSString} {ids : Set JSString}

theorem ordersOn_compareBases (hlocale : OrdersOn ids localeCompare) :
    OrdersOn ids (compareBases metadataById localeCompare) := by
  constructor
  · intro a ha b hb
    have hswap := hlocale.swap a ha b hb
    rw [compareBases, compareBases]
    split_ifs <;> omega
  · intro a ha b hb c hc
    have htrans := hlocale.trans a ha b hb c hc
    rw [compareBases, compareBases, compareBases]
    split_ifs <;> omega

theorem eq_of_compareBases (hlocale : OrdersOn ids localeCompare)
    (hdistinct : ∀ a ∈ ids, ∀ b ∈ ids, localeCompare a b = 0 → a = b) {a b : JSString}
    (ha : a ∈ ids) (hb : b ∈ ids) (hab : compareBases metadataById localeCompare a b ≤ 0)
    (hba : compareBases metadataById localeCompare b a ≤ 0) : a = b := by
  have hswap := hlocale.swap a ha b hb
  have hswap' := hlocale.swap b hb a ha
  refine hdistinct a ha b hb ?_
  rw [compareBases] at hab hba
  split_ifs at hab hba <;> omega

/-- The candidates for the merge base: a common ancestor with no other one below it. -/
structure Candidates (metadataById : LinkedMap JSString StoreEntryMetadata)
    (parents candidates : List JSString) : Prop where
  nodup : candidates.Nodup
  mem_iff : ∀ id, id ∈ candidates ↔ CommonAncestor metadataById parents id ∧
    ∀ other, CommonAncestor metadataById parents other → ¬ProperAncestor metadataById id other
  exists_mem : ∀ id, CommonAncestor metadataById parents id → ∃ id, id ∈ candidates

theorem Candidates.perm {candidates candidates' : List JSString}
    (h : Candidates metadataById parents candidates)
    (h' : Candidates metadataById parents' candidates') (hperm : parents'.Perm parents) :
    candidates'.Perm candidates := by
  refine (perm_ext_iff_of_nodup h'.nodup h.nodup).mpr fun id => ?_
  rw [h'.mem_iff, h.mem_iff]
  simp only [CommonAncestor.perm hperm]

variable (localeCompare) in
/-- The merge base of two or more parents is the first of the candidates. -/
theorem exists_candidates
    (hacyclic : Acyclic fun id dep => dep ∈ dependencyIdsOf metadataById id)
    (hparents : 2 ≤ parents.length) :
    ∃ candidates, Candidates metadataById parents candidates ∧
      computeConflictMergeBaseEntryId metadataById localeCompare parents
        = (sortBy (compareBases metadataById localeCompare) candidates).head? := by
  obtain ⟨result, hresult, heq⟩ : ∃ result, IsIntersection metadataById parents result ∧
      computeConflictMergeBaseEntryId metadataById localeCompare parents
        = result.bind fun common => (sortBy (compareBases metadataById localeCompare)
            (deepest metadataById common)).head? := by
    match parents, hparents with
    | parent :: parent' :: parents, _ =>
      exact ⟨_, isIntersection_intersectAncestors parent, rfl⟩
  cases result with
  | none =>
    refine ⟨[], ⟨nodup_nil, fun id => ?_, fun id hid => absurd hid (hresult id)⟩, heq⟩
    exact iff_of_false not_mem_nil fun h => hresult id h.1
  | some common =>
    exact ⟨deepest metadataById common, ⟨common.nodup.filter _,
      fun _ => mem_deepest hacyclic hresult, fun _ => exists_mem_deepest hacyclic hresult⟩, heq⟩

variable (localeCompare parents) in
/-- **The merge base**: there is none exactly when the parents have no common ancestor, it is a
common ancestor that is no proper ancestor of another, and the order of the parents is of no
account. -/
theorem mergeBase_spec
    (hacyclic : Acyclic fun id dep => dep ∈ dependencyIdsOf metadataById id)
    (hlocale : OrdersOn (idsBelow metadataById parents) localeCompare)
    (hdistinct : ∀ a ∈ idsBelow metadataById parents, ∀ b ∈ idsBelow metadataById parents,
      localeCompare a b = 0 → a = b)
    (hparents : 2 ≤ parents.length) :
    (computeConflictMergeBaseEntryId metadataById localeCompare parents = none
        ↔ ¬∃ id, CommonAncestor metadataById parents id) ∧
      (∀ base, computeConflictMergeBaseEntryId metadataById localeCompare parents = some base →
        CommonAncestor metadataById parents base ∧
          ∀ other, CommonAncestor metadataById parents other →
            ¬ProperAncestor metadataById base other) ∧
      ∀ parents', parents'.Perm parents →
        computeConflictMergeBaseEntryId metadataById localeCompare parents'
          = computeConflictMergeBaseEntryId metadataById localeCompare parents := by
  obtain ⟨candidates, h, heq⟩ := exists_candidates localeCompare hacyclic hparents
  have hbelow : ∀ id ∈ candidates, id ∈ idsBelow metadataById parents := fun id hid => by
    obtain ⟨parent, hparent⟩ := exists_mem_of_length_pos (Nat.zero_lt_of_lt hparents)
    exact ⟨parent, hparent, ((h.mem_iff id).mp hid).1 parent hparent⟩
  refine ⟨?_, fun base hbase => ?_, fun parents' hperm => ?_⟩
  · rw [heq, head?_eq_none_iff]
    constructor
    · rintro hnil ⟨id, hid⟩
      obtain ⟨base, hbase⟩ := h.exists_mem id hid
      rw [← mem_sortBy, hnil] at hbase
      exact absurd hbase not_mem_nil
    · intro hnone
      refine eq_nil_iff_forall_not_mem.mpr fun id hid => hnone ⟨id, ?_⟩
      exact ((h.mem_iff id).mp (mem_sortBy.mp hid)).1
  · rw [heq] at hbase
    exact (h.mem_iff base).mp (mem_sortBy.mp (mem_of_head? hbase))
  · obtain ⟨candidates', h', heq'⟩ := exists_candidates localeCompare hacyclic
      (hperm.length_eq ▸ hparents : 2 ≤ parents'.length)
    rw [heq, heq', sortBy_eq_of_perm
      ((ordersOn_compareBases hlocale).consistent hbelow) ?_ (h.perm h' hperm)]
    exact fun a ha b hb => eq_of_compareBases hlocale hdistinct (hbelow a ha) (hbelow b hb)

end Base

/-! ## A criss-cross merge -/

/-- Two branches, each merged into the other. -/
def crissCrossEntries : LinkedMap JSString StoreEntryMetadata :=
  LinkedMap.ofList ([.unwitnessed .docCreate "r" "d" "h" [] 0,
    .unwitnessed .docChange "a" "d" "h" ["r"] 1, .unwitnessed .docChange "b" "d" "h" ["r"] 1,
    .unwitnessed .docChange "m" "d" "h" ["a", "b"] 2,
    .unwitnessed .docChange "n" "d" "h" ["b", "a"] 2].map fun e => (e.id, e))

theorem acyclic_crissCrossEntries :
    Acyclic fun id dep => dep ∈ dependencyIdsOf crissCrossEntries id := by
  refine acyclic_of_rank
    (fun id => (["r", "a", "b", "m", "n"] : List JSString).idxOf id) fun id dep hdep => ?_
  have hranks : ∀ id ∈ crissCrossEntries.keys, ∀ dep ∈ dependencyIdsOf crissCrossEntries id,
      (["r", "a", "b", "m", "n"] : List JSString).idxOf dep
        < (["r", "a", "b", "m", "n"] : List JSString).idxOf id := by
    decide +kernel
  exact hranks id (LinkedMap.mem_keys_iff_has.mpr (has_of_mem_dependencyIdsOf hdep)) dep hdep

/-- Of its two deepest common ancestors, equally old, both orders of the heads give the first. -/
theorem mergeBase_spec_crissCross :
    computeConflictMergeBaseEntryId crissCrossEntries compareByOrder ["m", "n"]
        = some ("a" : JSString) ∧
      computeConflictMergeBaseEntryId crissCrossEntries compareByOrder ["n", "m"]
        = some ("a" : JSString) ∧
      CommonAncestor crissCrossEntries ["m", "n"] "a" := by
  have hspec := mergeBase_spec compareByOrder ["m", "n"] acyclic_crissCrossEntries
    (Orders.ofLinearOrder.ordersOn _) (fun a _ b _ h => separates_compareByOrder [a, b] a (by simp)
      b (by simp) h.le ((Orders.ofLinearOrder.swap_le a b).mpr h.ge)) (by decide)
  have hbase : computeConflictMergeBaseEntryId crissCrossEntries compareByOrder ["m", "n"]
      = some ("a" : JSString) := by decide +kernel
  exact ⟨hbase, (hspec.2.2 _ (List.Perm.swap _ _ _)).trans hbase, (hspec.2.1 _ hbase).1⟩

end MindooDB
