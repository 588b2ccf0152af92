import MindooDB.Lib.CompareSort
import MindooDB.Lib.LinkedMap
import MindooDB.Lib.JSString

/-!
# Access/Quarantine — which candidate entries are accepted

`core/accesscontrol/quarantine.ts`: candidates are judged in the order of their trusted times, and
one that depends on a quarantined candidate is quarantined with it.  The accepted ones are causally
closed exactly when every rejection reaches its dependents *in that order*
(`causallyClosed_iff_rejectionsArrive`); a dependent with the earlier trusted time is missed.

`localeCompare`, whose collation orders ids, is a parameter.
-/

namespace MindooDB

open List

/-- An entry that waits for its verdict. -/
structure QuarantineCandidate where
  id : JSString
  docId : JSString
  dependencyIds : List JSString
  entryType : JSString
  trustedTime : ℤ
  deriving DecidableEq

/-- What a verdict says of a rejection. -/
structure RejectionRecord where
  entryId : JSString
  docId : JSString
  dbid : JSString
  entryType : JSString
  reason : JSString
  detail : JSString
  trustedTime : ℤ
  deriving DecidableEq

structure QuarantineRecord extends RejectionRecord where
  recordedAt : ℤ
  causedByEntryId : Option JSString
  deriving DecidableEq

structure EntryVerdict where
  accepted : Bool
  record : Option RejectionRecord := none
  deriving DecidableEq

structure AcceptedSetResult where
  acceptedIds : List JSString := []
  quarantinedIds : List JSString := []
  records : List QuarantineRecord := []
  deriving DecidableEq

/-- The variables of the loop of `computeAcceptedSet`. -/
structure AcceptedSetLoop extends AcceptedSetResult where
  taintedBy : LinkedMap JSString JSString := ∅
  quarantined : LinkedSet JSString := ∅

def compareForEvaluation (localeCompare : JSString → JSString → ℤ) (a b : QuarantineCandidate) : ℤ :=
  if a.trustedTime = b.trustedTime then localeCompare a.id b.id else a.trustedTime - b.trustedTime

def sortForEvaluation (localeCompare : JSString → JSString → ℤ)
    (entries : List QuarantineCandidate) : List QuarantineCandidate :=
  sortBy (compareForEvaluation localeCompare) entries

/-- The record of an entry whose verdict came without one. -/
def deniedRecord (entry : QuarantineCandidate) : RejectionRecord where
  entryId := entry.id
  docId := entry.docId
  dbid := ""
  entryType := entry.entryType
  reason := "tier2_denied"
  detail := "rejected by access policy"
  trustedTime := entry.trustedTime

/-- An entry that goes with a dependency. -/
def cascadeRecord (entry : QuarantineCandidate) (taintingDep rootCause : JSString) (now : ℤ) :
    QuarantineRecord where
  entryId := entry.id
  docId := entry.docId
  dbid := ""
  entryType := entry.entryType
  reason := "cascade_dependent"
  detail := ("causally depends on quarantined entry " : JSString) ++ taintingDep
  trustedTime := entry.trustedTime
  recordedAt := now
  causedByEntryId := some rootCause

/-- The first quarantined dependency; an empty id counts as none. -/
def taintingDep (quarantined : JSString → Bool) (entry : QuarantineCandidate) : Option JSString :=
  (entry.dependencyIds.find? quarantined).filter fun dep => !dep.isEmpty

variable (localeCompare : JSString → JSString → ℤ) (verdictFor : QuarantineCandidate → EntryVerdict)

/-- The loop body of `computeAcceptedSet`. -/
def evaluateCandidate (now : ℤ) (s : AcceptedSetLoop) (entry : QuarantineCandidate) :
    AcceptedSetLoop :=
  match taintingDep (fun dep => dep ∈ s.quarantined) entry with
  | some dep =>
    let rootCause := (s.taintedBy.get? dep).getD dep
    { s with
      quarantined := s.quarantined.add entry.id
      quarantinedIds := s.quarantinedIds ++ [entry.id]
      taintedBy := s.taintedBy.set entry.id rootCause
      records := s.records ++ [cascadeRecord entry dep rootCause now] }
  | none =>
    let verdict := verdictFor entry
    if verdict.accepted then { s with acceptedIds := s.acceptedIds ++ [entry.id] }
    else
      { s with
        quarantined := s.quarantined.add entry.id
        quarantinedIds := s.quarantinedIds ++ [entry.id]
        taintedBy := s.taintedBy.set entry.id entry.id
        records := s.records ++
          [{ verdict.record.getD (deniedRecord entry) with
              recordedAt := now, causedByEntryId := none }] }

/-- **What is accepted**, and what is not. -/
def computeAcceptedSet (entries : List QuarantineCandidate) (now : ℤ) : AcceptedSetResult :=
  ((sortForEvaluation localeCompare entries).foldl (evaluateCandidate verdictFor now)
    {}).toAcceptedSetResult

/-! ## What is quarantined

The sets of the loop say the same as the list of quarantined ids, and an entry's fate depends on that
list alone. -/

/-- Whether an entry joins the quarantined ones. -/
def joins (quarantinedIds : List JSString) (entry : QuarantineCandidate) : Bool :=
  (taintingDep (fun dep => dep ∈ quarantinedIds) entry).isSome || !(verdictFor entry).accepted

/-- The ids that are quarantined once the entries of a list have been judged in turn. -/
def quarantinedAfter (l : List QuarantineCandidate) : List JSString :=
  l.foldl (fun ids entry => if joins verdictFor ids entry then ids ++ [entry.id] else ids) []

variable {verdictFor} {now : ℤ}

theorem quarantinedAfter_append_singleton (l : List QuarantineCandidate)
    (entry : QuarantineCandidate) :
    quarantinedAfter verdictFor (l ++ [entry])
      = if joins verdictFor (quarantinedAfter verdictFor l) entry then
          quarantinedAfter verdictFor l ++ [entry.id]
        else quarantinedAfter verdictFor l := by
  rw [quarantinedAfter, foldl_append]
  rfl

/-- Something happens at some entry of a list, or at the one that comes after it. -/
theorem exists_split_append_singleton {α : Type*} {P : List α → α → Prop} {l : List α} {e : α} :
    (∃ before a after, l ++ [e] = before ++ a :: after ∧ P before a)
      ↔ (∃ before a after, l = before ++ a :: after ∧ P before a) ∨ P l e := by
  constructor
  · rintro ⟨before, a, after, hl, hP⟩
    rcases eq_nil_or_concat after with rfl | ⟨after, x, rfl⟩
    · obtain ⟨rfl, h⟩ := append_inj' hl rfl
      obtain ⟨rfl, -⟩ := List.cons.inj h
      exact .inr hP
    · rw [concat_eq_append, ← cons_append, ← append_assoc] at hl
      obtain ⟨rfl, -⟩ := append_inj' hl rfl
      exact .inl ⟨before, a, after, rfl, hP⟩
  · rintro (⟨before, a, after, rfl, hP⟩ | hP)
    · exact ⟨before, a, after ++ [e], by simp, hP⟩
    · exact ⟨l, e, [], rfl, hP⟩

/-- **A quarantined id is the id of an entry that joined at its turn.** -/
theorem mem_quarantinedAfter {l : List QuarantineCandidate} {id : JSString} :
    id ∈ quarantinedAfter verdictFor l ↔ ∃ before entry after, l = before ++ entry :: after ∧
      entry.id = id ∧ joins verdictFor (quarantinedAfter verdictFor before) entry = true := by
  induction l using List.reverseRecOn with
  | nil => simp [quarantinedAfter]
  | append_singleton l e ih =>
    rw [exists_split_append_singleton, ← ih, quarantinedAfter_append_singleton]
    split
    · rename_i hjoins
      simp [hjoins, eq_comm]
    · rename_i hjoins
      simp [hjoins]

/-- What the loop has found after the entries of a list. -/
structure Judged (verdictFor : QuarantineCandidate → EntryVerdict) (s : AcceptedSetLoop)
    (l : List QuarantineCandidate) : Prop where
  quarantinedIds : s.quarantinedIds = quarantinedAfter verdictFor l
  quarantined : ∀ id, id ∈ s.quarantined ↔ id ∈ s.quarantinedIds
  partition : (s.acceptedIds ++ s.quarantinedIds).Perm (l.map QuarantineCandidate.id)
  accepted : ∀ id, id ∈ s.acceptedIds ↔ ∃ before entry after, l = before ++ entry :: after ∧
    entry.id = id ∧ joins verdictFor (quarantinedAfter verdictFor before) entry = false

theorem taintingDep_congr {q q' : JSString → Bool} (h : ∀ id, q id = q' id)
    (entry : QuarantineCandidate) : taintingDep q entry = taintingDep q' entry := by
  rw [funext h]

/-- One more entry is judged. -/
theorem Judged.evaluateCandidate {s : AcceptedSetLoop} {l : List QuarantineCandidate}
    (h : Judged verdictFor s l) (entry : QuarantineCandidate) :
    Judged verdictFor (evaluateCandidate verdictFor now s entry) (l ++ [entry]) := by
  have hdep : taintingDep (fun dep => dep ∈ s.quarantined) entry
      = taintingDep (fun dep => dep ∈ quarantinedAfter verdictFor l) entry :=
    taintingDep_congr (fun id => by simp [h.quarantined, h.quarantinedIds]) entry
  have hperm : ∀ ids, (s.acceptedIds ++ (s.quarantinedIds ++ ids)).Perm
      (l.map QuarantineCandidate.id ++ ids) := fun ids => by
    rw [← append_assoc]
    exact h.partition.append_right ids
  have hjoined : ∀ (hj : joins verdictFor (quarantinedAfter verdictFor l) entry = true) taintedBy
      records, Judged verdictFor
        ⟨⟨s.acceptedIds, s.quarantinedIds ++ [entry.id], records⟩, taintedBy,
          s.quarantined.add entry.id⟩ (l ++ [entry]) := fun hj taintedBy records =>
    { quarantinedIds := by
        rw [quarantinedAfter_append_singleton, if_pos hj, ← h.quarantinedIds]
      quarantined := fun id => by simp [h.quarantined, or_comm]
      partition := by simpa using hperm [entry.id]
      accepted := fun id => by
        rw [exists_split_append_singleton, ← h.accepted]
        simp [hj] }
  rw [MindooDB.evaluateCandidate, hdep]
  split
  · rename_i dep hsome
    exact hjoined (by simp [joins, hsome]) _ _
  · rename_i hnone
    dsimp only
    cases hacc : (verdictFor entry).accepted with
    | false => exact hjoined (by simp [joins, hacc]) _ _
    | true =>
      have hj : joins verdictFor (quarantinedAfter verdictFor l) entry = false := by
        simp [joins, hnone, hacc]
      exact
        { quarantinedIds := by
            rw [quarantinedAfter_append_singleton, hj]
            exact h.quarantinedIds
          quarantined := h.quarantined
          partition := by
            have hswap : ([entry.id] ++ s.quarantinedIds).Perm (s.quarantinedIds ++ [entry.id]) :=
              perm_append_comm
            have hback := (hswap.append_left s.acceptedIds).trans (hperm [entry.id])
            simpa using hback
          accepted := fun id => by
            rw [exists_split_append_singleton, ← h.accepted]
            simp [hj, eq_comm] }

theorem judged_foldl (now : ℤ) (l : List QuarantineCandidate) :
    Judged verdictFor (l.foldl (evaluateCandidate verdictFor now) {}) l := by
  induction l using List.reverseRecOn with
  | nil =>
    exact
      { quarantinedIds := rfl
        quarantined := fun id => by simp
        partition := .nil
        accepted := fun id => by simp }
  | append_singleton l e ih =>
    rw [foldl_append]
    exact ih.evaluateCandidate e

/-! ## Causal closure -/

/-- `d` is a candidate that `e` depends on. -/
def DependsOnCandidate (entries : List QuarantineCandidate) (e d : QuarantineCandidate) : Prop :=
  d ∈ entries ∧ d.id ∈ e.dependencyIds

/-- **A causally closed result**: the candidates are split into accepted and quarantined ones, and no
accepted one depends, directly or not, on a quarantined one. -/
structure CausallyClosed (entries : List QuarantineCandidate) (result : AcceptedSetResult) : Prop where
  partition : (result.acceptedIds ++ result.quarantinedIds).Perm
    (entries.map QuarantineCandidate.id)
  disjoint : ∀ id ∈ result.acceptedIds, id ∉ result.quarantinedIds
  closed : ∀ e ∈ entries, e.id ∈ result.acceptedIds →
    ∀ d, Relation.TransGen (DependsOnCandidate entries) e d → d.id ∉ result.quarantinedIds

/-- `d` is a candidate that `e` depends on, or one with the same id. -/
def LinkedTo (entries : List QuarantineCandidate) (e d : QuarantineCandidate) : Prop :=
  d ∈ entries ∧ (d.id ∈ e.dependencyIds ∨ d.id = e.id)

/-- The verdict rejects the entry or something it depends on. -/
def Condemned (entries : List QuarantineCandidate)
    (verdictFor : QuarantineCandidate → EntryVerdict) (e : QuarantineCandidate) : Prop :=
  ∃ d, Relation.ReflTransGen (LinkedTo entries) e d ∧ (verdictFor d).accepted = false

/-- **A rejection reaches an entry** through candidates judged before it, each before the one that
depends on it.  An empty id stands in the way of what is listed behind it. -/
inductive Reached (entries : List QuarantineCandidate)
    (verdictFor : QuarantineCandidate → EntryVerdict) :
    List QuarantineCandidate → QuarantineCandidate → Prop
  | rejected {before : List QuarantineCandidate} {e : QuarantineCandidate}
      (h : (verdictFor e).accepted = false) : Reached entries verdictFor before e
  | cascade {earlier between : List QuarantineCandidate} {e d : QuarantineCandidate}
      {front back : List JSString} (hdeps : e.dependencyIds = front ++ d.id :: back)
      (hid : d.id.isEmpty = false)
      (hfront : ∀ dep ∈ front, dep.isEmpty = true → ∀ c ∈ earlier ++ d :: between, c.id = dep →
        ¬ Condemned entries verdictFor c)
      (hd : Reached entries verdictFor earlier d) :
      Reached entries verdictFor (earlier ++ d :: between) e

/-- **Whatever is to be condemned is reached when its turn comes.** -/
def RejectionsArrive (localeCompare : JSString → JSString → ℤ)
    (verdictFor : QuarantineCandidate → EntryVerdict) (entries : List QuarantineCandidate) : Prop :=
  ∀ before e after, sortForEvaluation localeCompare entries = before ++ e :: after →
    Condemned entries verdictFor e → Reached entries verdictFor before e

variable {e : QuarantineCandidate}

section Closure

variable {entries : List QuarantineCandidate}

theorem condemned_of_linkedTo {e d : QuarantineCandidate} (hlink : LinkedTo entries e d)
    (h : Condemned entries verdictFor d) : Condemned entries verdictFor e := by
  obtain ⟨r, hr, hrejected⟩ := h
  exact ⟨r, .head hlink hr, hrejected⟩

variable {before : List QuarantineCandidate}

/-- Only what is to be condemned ever joins. -/
theorem condemned_of_joins {after : List QuarantineCandidate}
    (hsub : before ++ e :: after ⊆ entries)
    (h : joins verdictFor (quarantinedAfter verdictFor before) e = true) :
    Condemned entries verdictFor e := by
  induction hn : before.length using Nat.strong_induction_on generalizing before e after with
  | _ n ih =>
    rw [joins, Bool.or_eq_true, Option.isSome_iff_exists] at h
    rcases h with ⟨dep, hdep⟩ | h
    · obtain ⟨hfind, -⟩ := Option.filter_eq_some_iff.mp hdep
      have hmem : dep ∈ quarantinedAfter verdictFor before := by
        simpa using find?_some hfind
      obtain ⟨earlier, d, between, rfl, rfl, hjoins⟩ := mem_quarantinedAfter.mp hmem
      have hsub' : earlier ++ d :: between ⊆ entries := List.Subset.trans (subset_append_left _ _) hsub
      refine condemned_of_linkedTo ⟨hsub' (by simp), .inl (mem_of_find?_eq_some hfind)⟩ ?_
      exact ih _ (by simp [← hn]) hsub' hjoins rfl
    · exact ⟨e, .refl, by simpa using h⟩

theorem condemned_of_reached (hsub : before ⊆ entries) (h : Reached entries verdictFor before e) :
    Condemned entries verdictFor e := by
  induction h with
  | rejected h => exact ⟨_, .refl, h⟩
  | cascade hdeps _ _ _ ih =>
    refine condemned_of_linkedTo ⟨hsub (by simp), .inl (by simp [hdeps])⟩ (ih ?_)
    exact List.Subset.trans (subset_append_left _ _) hsub

variable {l : List QuarantineCandidate}

/-- The entries judged so far joined exactly when they were to be condemned. -/
def Faithful (entries : List QuarantineCandidate)
    (verdictFor : QuarantineCandidate → EntryVerdict) (l : List QuarantineCandidate) : Prop :=
  ∀ before e after, l = before ++ e :: after → Condemned entries verdictFor e →
    joins verdictFor (quarantinedAfter verdictFor before) e = true

theorem Faithful.of_append {after : List QuarantineCandidate}
    (h : Faithful entries verdictFor (before ++ after)) : Faithful entries verdictFor before :=
  fun b e a hl => h b e (a ++ after) (by simp [hl])

/-- **Where judging was faithful, the quarantined ids are those of the condemned.** -/
theorem Faithful.mem_quarantinedAfter (h : Faithful entries verdictFor l) (hsub : l ⊆ entries)
    (id : JSString) :
    id ∈ quarantinedAfter verdictFor l
      ↔ ∃ c ∈ l, c.id = id ∧ Condemned entries verdictFor c := by
  rw [MindooDB.mem_quarantinedAfter]
  constructor
  · rintro ⟨before, e, after, rfl, rfl, hjoins⟩
    exact ⟨e, by simp, rfl, condemned_of_joins hsub hjoins⟩
  · rintro ⟨c, hc, rfl, hcond⟩
    obtain ⟨before, after, rfl⟩ := append_of_mem hc
    exact ⟨before, c, after, rfl, rfl, h before c after rfl hcond⟩

/-- What is reached joins, if everything before was judged faithfully. -/
theorem joins_of_reached (hbefore : Faithful entries verdictFor before) (hsub : before ⊆ entries)
    (h : Reached entries verdictFor before e) :
    joins verdictFor (quarantinedAfter verdictFor before) e = true := by
  cases h with
  | rejected h => simp [joins, h]
  | @cascade earlier between _ d front back hdeps hid hfront hd =>
    have hmem := hbefore.mem_quarantinedAfter hsub
    have hcond : Condemned entries verdictFor d :=
      condemned_of_reached (List.Subset.trans (subset_append_left _ _) hsub) hd
    have hdq : d.id ∈ quarantinedAfter verdictFor (earlier ++ d :: between) :=
      (hmem d.id).mpr ⟨d, by simp, rfl, hcond⟩
    rcases hfind : front.find? fun dep =>
        dep ∈ quarantinedAfter verdictFor (earlier ++ d :: between) with _ | dep
    · simp [joins, taintingDep, hdeps, find?_append, hfind, hdq, hid]
    · -- an earlier dependency is quarantined, and it is no empty id
      have hdep : dep ∈ quarantinedAfter verdictFor (earlier ++ d :: between) := by
        simpa using find?_some hfind
      obtain ⟨c, hc, rfl, hccond⟩ := (hmem dep).mp hdep
      have hne : c.id.isEmpty = false := by
        by_contra hempty
        exact hfront _ (mem_of_find?_eq_some hfind) (by simpa using hempty) c hc rfl hccond
      simp [joins, taintingDep, hdeps, find?_append, hfind, hne]

/-- What joins was reached, if everything before was judged faithfully. -/
theorem reached_of_joins (hbefore : Faithful entries verdictFor before) (hsub : before ⊆ entries)
    (h : joins verdictFor (quarantinedAfter verdictFor before) e = true) :
    Reached entries verdictFor before e := by
  induction hn : before.length using Nat.strong_induction_on generalizing before e with
  | _ n ih =>
    have hmem := hbefore.mem_quarantinedAfter hsub
    rw [joins, Bool.or_eq_true, Option.isSome_iff_exists] at h
    rcases h with ⟨dep, hdep⟩ | h
    · obtain ⟨hfind, hne⟩ := Option.filter_eq_some_iff.mp hdep
      obtain ⟨hdq, front, back, hdeps, hfront⟩ := find?_eq_some_iff_append.mp hfind
      have hdq' : dep ∈ quarantinedAfter verdictFor before := by simpa using hdq
      obtain ⟨earlier, d, between, rfl, rfl, hjoins⟩ := mem_quarantinedAfter.mp hdq'
      refine .cascade hdeps (by simpa using hne) (fun dep' hdep' _ c hc hcid hcond => ?_) ?_
      · have := hfront dep' hdep'
        exact absurd ((hmem dep').mpr ⟨c, hc, hcid, hcond⟩) (by simpa using this)
      · exact ih _ (by simp [← hn]) (Faithful.of_append hbefore)
          (List.Subset.trans (subset_append_left _ _) hsub) hjoins rfl
    · exact .rejected (by simpa using h)

end Closure

/-! ## The result -/

variable {localeCompare} {entries : List QuarantineCandidate}

theorem perm_sortForEvaluation (localeCompare : JSString → JSString → ℤ)
    (entries : List QuarantineCandidate) : (sortForEvaluation localeCompare entries).Perm entries :=
  perm_sortBy _ entries

/-- **Every rejection arriving in time is judging faithfully.** -/
theorem faithful_iff_rejectionsArrive :
    Faithful entries verdictFor (sortForEvaluation localeCompare entries)
      ↔ RejectionsArrive localeCompare verdictFor entries := by
  have hsub := (perm_sortForEvaluation localeCompare entries).subset
  constructor
  · intro h before e after hl hcond
    rw [hl] at h hsub
    exact reached_of_joins (Faithful.of_append h) (List.Subset.trans (subset_append_left _ _) hsub)
      (h before e after rfl hcond)
  · intro h
    suffices ∀ l rest, sortForEvaluation localeCompare entries = l ++ rest →
        Faithful entries verdictFor l from this _ [] (by simp)
    intro l
    induction l using List.reverseRecOn with
    | nil => exact fun _ _ before e after hl => by simp at hl
    | append_singleton l x ih =>
      intro rest hrest
      have hl := ih (x :: rest) (by simpa using hrest)
      rw [hrest] at hsub
      intro before e after heq hcond
      rcases eq_nil_or_concat after with rfl | ⟨after, y, rfl⟩
      · obtain ⟨rfl, hx⟩ := append_inj' heq rfl
        obtain ⟨rfl, -⟩ := List.cons.inj hx
        exact joins_of_reached hl (fun a ha => hsub (by simp [ha]))
          (h l x rest (by simpa using hrest) hcond)
      · rw [concat_eq_append, ← cons_append, ← append_assoc] at heq
        obtain ⟨rfl, -⟩ := append_inj' heq rfl
        exact hl before e after rfl hcond

/-- In a causally closed result whatever is to be condemned is quarantined. -/
theorem CausallyClosed.mem_quarantinedIds {result : AcceptedSetResult}
    (h : CausallyClosed entries result)
    (hquarantined : result.quarantinedIds
      = quarantinedAfter verdictFor (sortForEvaluation localeCompare entries))
    (he : e ∈ entries) (hcond : Condemned entries verdictFor e) :
    e.id ∈ result.quarantinedIds := by
  obtain ⟨r, hr, hrejected⟩ := hcond
  induction hr using Relation.ReflTransGen.head_induction_on with
  | refl =>
    obtain ⟨before, after, hl⟩ := append_of_mem ((perm_sortForEvaluation
      localeCompare entries).mem_iff.mpr he)
    rw [hquarantined, mem_quarantinedAfter]
    exact ⟨before, r, after, hl, rfl, by simp [joins, hrejected]⟩
  | @head e d hlink _ ih =>
    have hd := ih hlink.1
    rcases hlink.2 with hdep | hid
    · have hmem : e.id ∈ result.acceptedIds ++ result.quarantinedIds :=
        h.partition.mem_iff.mpr (mem_map_of_mem he)
      refine (mem_append.mp hmem).resolve_left fun hacc => ?_
      exact h.closed e he hacc d (.single ⟨hlink.1, hdep⟩) hd
    · exact hid ▸ hd

theorem condemned_of_transGen {e d : QuarantineCandidate}
    (h : Relation.TransGen (DependsOnCandidate entries) e d) (hd : Condemned entries verdictFor d) :
    Condemned entries verdictFor e := by
  induction h using Relation.TransGen.head_induction_on with
  | single hdep => exact condemned_of_linkedTo ⟨hdep.1, .inl hdep.2⟩ hd
  | head hdep _ ih => exact condemned_of_linkedTo ⟨hdep.1, .inl hdep.2⟩ ih

/-- Judged faithfully, the accepted entries are those not to be condemned. -/
theorem Judged.not_condemned {s : AcceptedSetLoop} {l : List QuarantineCandidate}
    (hjudged : Judged verdictFor s l) (h : Faithful entries verdictFor l)
    (he : e ∈ entries) (hacc : e.id ∈ s.acceptedIds) :
    ¬ Condemned entries verdictFor e := by
  intro hcond
  obtain ⟨before, e', after, hl, hid, hjoins⟩ := (hjudged.accepted e.id).mp hacc
  have hcond' : Condemned entries verdictFor e' :=
    condemned_of_linkedTo ⟨he, .inr hid.symm⟩ hcond
  simp [h before e' after hl hcond'] at hjoins

/-- **The result is causally closed exactly when every rejection arrives in time.** -/
theorem causallyClosed_iff_rejectionsArrive (localeCompare : JSString → JSString → ℤ)
    (verdictFor : QuarantineCandidate → EntryVerdict) (entries : List QuarantineCandidate) (now : ℤ) :
    CausallyClosed entries (computeAcceptedSet localeCompare verdictFor entries now)
      ↔ RejectionsArrive localeCompare verdictFor entries := by
  have hjudged : Judged verdictFor _ (sortForEvaluation localeCompare entries) :=
    judged_foldl now _
  have hperm := perm_sortForEvaluation localeCompare entries
  rw [← faithful_iff_rejectionsArrive]
  constructor
  · intro h before e after hl hcond
    have he : e ∈ entries := hperm.subset (by simp [hl])
    by_contra hjoins
    have hacc := (hjudged.accepted e.id).mpr ⟨before, e, after, hl, rfl, by simpa using hjoins⟩
    exact h.disjoint _ hacc (h.mem_quarantinedIds hjudged.quarantinedIds he hcond)
  · intro h
    have hquarantined := h.mem_quarantinedAfter hperm.subset
    rw [← hjudged.quarantinedIds] at hquarantined
    refine ⟨hjudged.partition.trans (hperm.map _), fun id hacc hq => ?_, fun e he hacc d hdep hq => ?_⟩
    · obtain ⟨c, hc, rfl, hcond⟩ := (hquarantined id).mp hq
      exact hjudged.not_condemned h (hperm.subset hc) hacc hcond
    · obtain ⟨c, hc, hid, hcond⟩ := (hquarantined d.id).mp hq
      have hd : Condemned entries verdictFor d :=
        condemned_of_linkedTo ⟨hperm.subset hc, Or.inr hid⟩ hcond
      exact hjudged.not_condemned h he hacc (condemned_of_transGen hdep hd)

/-- `b`, which `a` depends on, has the later trusted time and is rejected. -/
theorem not_causallyClosed_skewedClock :
    let a : QuarantineCandidate := ⟨"a", "doc", ["b"], "doc_change", 1⟩
    let b : QuarantineCandidate := ⟨"b", "doc", [], "doc_change", 2⟩
    ¬ CausallyClosed [a, b]
      (computeAcceptedSet (fun _ _ => 0) (fun entry => ⟨decide (entry = a), none⟩) [a, b] 0) := by
  intro a b h
  have hresult : computeAcceptedSet (fun _ _ => 0) (fun entry => ⟨decide (entry = a), none⟩) [a, b] 0
      = ⟨["a"], ["b"], [⟨deniedRecord b, 0, none⟩]⟩ := by decide
  rw [hresult] at h
  exact h.closed a (by simp) (by decide) b (.single ⟨by simp, by decide⟩) (by decide)

end MindooDB
