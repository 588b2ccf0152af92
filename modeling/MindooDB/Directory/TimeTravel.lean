import MindooDB.Directory.Projection
import MindooDB.Lib.CompareSort
import MindooDB.Lib.LatestBy
import MindooDB.Lib.ScanFeed

/-!
# Directory/TimeTravel — the index behind time travel

`core/accesscontrol/DirectoryTimeTravelIndex.ts`.  Revisions are kept by entry id, a later arrival
replacing an earlier one, and the chain is rebuilt by projecting them in `(trustedTime, entryId)`
order.  `getStateAt_rebuild` says what that gives: at any time `T` the very node a fresh chain
reaches after the revisions up to `T`.
-/

namespace MindooDB

open LinkedMap

variable {τ : Type*}

structure RevisionCursor where
  receiptOrder : ℤ
  id : JSString

/-- A revision as the index stores it. -/
structure StoredDirectoryRevision (τ : Type*) extends DirectoryRevision τ where
  entryId : JSString
  witnessed : Bool

structure DirectoryTimeTravelIndex (τ : Type*) where
  builder : DirectoryStateChainBuilder τ
  revisions : LinkedMap JSString (StoredDirectoryRevision τ) := ∅
  cursor : Option RevisionCursor := none
  unwitnessedIds : LinkedSet JSString := ∅
  dirty : Bool := false

variable [LinearOrder τ]

namespace DirectoryTimeTravelIndex

/-- A new index. -/
def initial [OrderBot τ] : DirectoryTimeTravelIndex τ := { builder := .fresh }

variable (ix : DirectoryTimeTravelIndex τ)

/-- Whether a revision differs from the record it replaces. -/
def revisionChanged (prev : Option (StoredDirectoryRevision τ)) (revision : StoredDirectoryRevision τ) :
    Bool :=
  match prev with
  | none => true
  | some prev =>
    prev.trustedTime ≠ revision.trustedTime || prev.deleted ≠ revision.deleted ||
      prev.witnessed ≠ revision.witnessed || prev.docId ≠ revision.docId ||
      !Json.sameFields prev.data revision.data

/-- **Insert or replace a revision**; the flag tells whether the stored set changed. -/
def upsertRevision (revision : StoredDirectoryRevision τ) (cursor : Option RevisionCursor) :
    DirectoryTimeTravelIndex τ × Bool :=
  let changed := revisionChanged (ix.revisions.get? revision.entryId) revision
  ({ ix with
      cursor
      unwitnessedIds :=
        if revision.witnessed then ix.unwitnessedIds.delete revision.entryId
        else ix.unwitnessedIds.add revision.entryId
      revisions := ix.revisions.set revision.entryId revision
      dirty := true },
    changed)

/-- The comparator of `rebuild`; `localeCompare` is a parameter, for its collation. -/
def compareRevisions (localeCompare : JSString → JSString → ℤ) (a b : StoredDirectoryRevision τ) : ℤ :=
  if a.trustedTime ≠ b.trustedTime then if a.trustedTime < b.trustedTime then -1 else 1
  else localeCompare a.entryId b.entryId

/-- **Replay every stored revision** in `(trustedTime, entryId)` order. -/
def rebuild [OrderBot τ] (localeCompare : JSString → JSString → ℤ)
    (project : DirectoryStateChainBuilder τ → DirectoryRevision τ → DirectoryStateChainBuilder τ) :
    DirectoryTimeTravelIndex τ :=
  let sorted := sortBy (compareRevisions localeCompare) ix.revisions.values
  { ix with
    builder := sorted.foldl (fun b revision => project b revision.toDirectoryRevision) .fresh
    dirty := true }

def getStateAt [OrderBot τ] (T : τ) : DirectoryStateNode τ := ix.builder.getStateAt T

/-- The index after a sequence of arrivals. -/
def upsertAll (arrivals : List (StoredDirectoryRevision τ × Option RevisionCursor)) :
    DirectoryTimeTravelIndex τ :=
  arrivals.foldl (fun ix a => (ix.upsertRevision a.1 a.2).1) ix

end DirectoryTimeTravelIndex

open DirectoryTimeTravelIndex DirectoryStateChainBuilder

/-! ## What is stored -/

/-- **The revisions on record** after a sequence of arrivals: of each entry id the last one. -/
def lastArrivals (l : List (StoredDirectoryRevision τ)) : List (StoredDirectoryRevision τ) :=
  latestBy (fun r => r.entryId) l

theorem get?_revisions_upsertAll (ix : DirectoryTimeTravelIndex τ)
    (arrivals : List (StoredDirectoryRevision τ × Option RevisionCursor)) (id : JSString) :
    (ix.upsertAll arrivals).revisions.get? id
      = ((arrivals.map Prod.fst).reverse.find? fun r => r.entryId = id).or (ix.revisions.get? id) := by
  induction arrivals generalizing ix with
  | nil => simp [upsertAll]
  | cons a arrivals ih =>
    rw [upsertAll, List.foldl_cons, ← upsertAll, ih, List.map_cons, List.reverse_cons,
      List.find?_append, Option.or_assoc]
    congr 1
    simp only [upsertRevision, get?_set]
    by_cases hid : id = a.1.entryId
    · simp [hid]
    · simp [hid, Ne.symm hid]

section Stored

variable [OrderBot τ] (arrivals : List (StoredDirectoryRevision τ × Option RevisionCursor))

/-- Under an entry id the index stores its last arrival. -/
theorem get?_revisions_iff (id : JSString) (r : StoredDirectoryRevision τ) :
    (initial.upsertAll arrivals).revisions.get? id = some r
      ↔ r.entryId = id ∧ r ∈ lastArrivals (arrivals.map Prod.fst) := by
  rw [get?_revisions_upsertAll, initial, get?_empty, Option.or_none,
    List.find?_eq_some_iff_append, lastArrivals, mem_latestBy]
  simp only [decide_eq_true_eq, Bool.not_eq_true', decide_eq_false_iff_not]
  constructor
  · rintro ⟨rfl, later, earlier, hl, hlater⟩
    refine ⟨rfl, earlier.reverse, later.reverse, ?_, fun r' hr' => hlater r' (List.mem_reverse.mp hr')⟩
    simpa using congrArg List.reverse hl
  · rintro ⟨rfl, before, after, hl, hafter⟩
    exact ⟨rfl, after.reverse, before.reverse, by simp [hl], fun r' hr' =>
      hafter r' (List.mem_reverse.mp hr')⟩

theorem nodup_entryIds :
    ((initial.upsertAll arrivals).revisions.values.map fun r => r.entryId).Nodup := by
  have hkeys : (initial.upsertAll arrivals).revisions.values.map (fun r => r.entryId)
      = (initial.upsertAll arrivals).revisions.keys := by
    rw [values, keys, List.map_map]
    exact List.map_congr_left fun p hp =>
      ((get?_revisions_iff arrivals p.1 p.2).mp (mem_toList_iff.mp hp)).1
  rw [hkeys]
  exact nodup_keys _

/-- The index stores the last arrivals, each once. -/
theorem perm_values_upsertAll :
    (initial.upsertAll arrivals).revisions.values.Perm (lastArrivals (arrivals.map Prod.fst)) := by
  refine (List.perm_ext_iff_of_nodup (List.Nodup.of_map _ (nodup_entryIds arrivals))
    (List.Nodup.of_map _ (nodup_map_latestBy _ _))).mpr fun r => ?_
  rw [mem_values_iff]
  exact ⟨fun ⟨id, h⟩ => ((get?_revisions_iff arrivals id r).mp h).2, fun h =>
    ⟨r.entryId, (get?_revisions_iff arrivals _ r).mpr ⟨rfl, h⟩⟩⟩

end Stored

/-! ## Replaying -/

section Replay

variable {project : DirectoryStateChainBuilder τ → DirectoryRevision τ → DirectoryStateChainBuilder τ}

/-- Replay revisions onto a builder. -/
def replay (project : DirectoryStateChainBuilder τ → DirectoryRevision τ → DirectoryStateChainBuilder τ)
    (b : DirectoryStateChainBuilder τ) (l : List (StoredDirectoryRevision τ)) :
    DirectoryStateChainBuilder τ :=
  l.foldl (fun b revision => project b revision.toDirectoryRevision) b

variable (hproject : ∀ b r, Extends r.trustedTime b (project b r)) {T : τ}

include hproject

/-- Revisions up to `T` leave the head bounded by `T`. -/
theorem bound_replay_le (b : DirectoryStateChainBuilder τ) (l : List (StoredDirectoryRevision τ))
    (hb : b.head.state.trustedTimeUpperBound ≤ T) (hl : ∀ r ∈ l, r.trustedTime ≤ T) :
    (replay project b l).head.state.trustedTimeUpperBound ≤ T := by
  induction l generalizing b with
  | nil => exact hb
  | cons r l ih =>
    refine ih _ ?_ fun r' hr' => hl r' (List.mem_cons_of_mem _ hr')
    rcases (hproject b r.toDirectoryRevision).bound with h | h <;> rw [h]
    · exact hb
    · exact max_le (hl r List.mem_cons_self) hb

/-- **Revisions after `T` push states above `T` only.** -/
theorem chain_replay_of_lt (b : DirectoryStateChainBuilder τ) (l : List (StoredDirectoryRevision τ))
    (hl : ∀ r ∈ l, T < r.trustedTime) :
    ∃ later, (replay project b l).head.chain = later ++ b.head.chain ∧
      ∀ s ∈ later, T < s.trustedTimeUpperBound := by
  induction l generalizing b with
  | nil => exact ⟨[], rfl, by simp⟩
  | cons r l ih =>
    obtain ⟨later, hchain, hlater⟩ :=
      ih (project b r.toDirectoryRevision) fun r' hr' => hl r' (List.mem_cons_of_mem _ hr')
    obtain ⟨pushed, hpushed, hbound⟩ := hproject b r.toDirectoryRevision
    refine ⟨later ++ pushed, by rw [List.append_assoc, ← hpushed]; exact hchain, fun s hs => ?_⟩
    rcases List.mem_append.mp hs with hs | hs
    · exact hlater s hs
    · rw [hbound s hs]
      exact lt_max_of_lt_left (hl r List.mem_cons_self)

/-- Looking up `T` in a replay in time order is replaying up to `T`. -/
theorem nodeCovering_replay [OrderBot τ] {l : List (StoredDirectoryRevision τ)}
    (hl : l.Pairwise fun a b => a.trustedTime ≤ b.trustedTime) :
    nodeCovering (replay project .fresh l).head T
      = (replay project .fresh (l.filter fun r => r.trustedTime ≤ T)).head := by
  have hmono : l.Pairwise fun a b => decide (b.trustedTime ≤ T) → decide (a.trustedTime ≤ T) :=
    hl.imp fun hle => by simpa using hle.trans
  have hsplit : l = l.filter (fun r => r.trustedTime ≤ T)
      ++ l.filter fun r => !decide (r.trustedTime ≤ T) := by
    rw [← ScanFeed.take_bisect hmono, ← ScanFeed.drop_bisect hmono, List.take_append_drop]
  obtain ⟨later, hchain, hlater⟩ := chain_replay_of_lt hproject (T := T)
    (replay project .fresh (l.filter fun r => r.trustedTime ≤ T))
    (l.filter fun r => !decide (r.trustedTime ≤ T)) (by simp)
  rw [replay, replay, ← List.foldl_append, ← hsplit] at hchain
  exact nodeCovering_eq hchain hlater (bound_replay_le hproject _ _ bot_le (by simp))

end Replay

/-! ## The order of replay -/

section Compare

variable {localeCompare : JSString → JSString → ℤ} {l : List (StoredDirectoryRevision τ)}

theorem compareRevisions_le {a b : StoredDirectoryRevision τ} :
    compareRevisions localeCompare a b ≤ 0 ↔ a.trustedTime < b.trustedTime ∨
      a.trustedTime = b.trustedTime ∧ localeCompare a.entryId b.entryId ≤ 0 := by
  unfold compareRevisions
  by_cases heq : a.trustedTime = b.trustedTime
  · simp [heq]
  · by_cases hlt : a.trustedTime < b.trustedTime <;> simp [heq, hlt]

theorem consistent_compareRevisions
    (h : Consistent localeCompare (l.map fun r => r.entryId)) :
    Consistent (compareRevisions localeCompare) l where
  total a ha b hb := by
    rw [compareRevisions_le, compareRevisions_le]
    rcases lt_trichotomy a.trustedTime b.trustedTime with hlt | heq | hlt
    · exact .inl (.inl hlt)
    · exact (h.total _ (List.mem_map_of_mem ha) _ (List.mem_map_of_mem hb)).imp
        (fun hle => .inr ⟨heq, hle⟩) fun hle => .inr ⟨heq.symm, hle⟩
    · exact .inr (.inl hlt)
  trans a ha b hb c hc := by
    rw [compareRevisions_le, compareRevisions_le, compareRevisions_le]
    rintro (hab | ⟨hab, hab'⟩) (hbc | ⟨hbc, hbc'⟩)
    · exact .inl (hab.trans hbc)
    · exact .inl (hbc ▸ hab)
    · exact .inl (hab ▸ hbc)
    · exact .inr ⟨hab.trans hbc, h.trans _ (List.mem_map_of_mem ha) _ (List.mem_map_of_mem hb) _
        (List.mem_map_of_mem hc) hab' hbc'⟩

theorem separates_compareRevisions (hid : (l.map fun r => r.entryId).Nodup)
    (h : Separates localeCompare (l.map fun r => r.entryId)) :
    Separates (compareRevisions localeCompare) l := by
  intro a ha b hb hab hba
  rw [compareRevisions_le] at hab hba
  have hids : a.entryId = b.entryId := by
    rcases hab with hab | ⟨hab, hab'⟩
    · rcases hba with hba | ⟨hba, -⟩
      · exact absurd (hab.trans hba) (lt_irrefl _)
      · exact absurd (hba ▸ hab) (lt_irrefl _)
    · rcases hba with hba | ⟨-, hba'⟩
      · exact absurd (hab ▸ hba) (lt_irrefl _)
      · exact h _ (List.mem_map_of_mem ha) _ (List.mem_map_of_mem hb) hab' hba'
  exact List.inj_on_of_nodup_map hid ha hb hids

end Compare

/-- **Time travel shows the past as it was.**  Whatever the order the revisions arrived in, the
rebuilt index gives for `T` the node that a fresh chain reaches with the revisions on record up to
`T`, projected by time and entry id; nothing later shows through. -/
theorem getStateAt_rebuild [OrderBot τ] (localeCompare : JSString → JSString → ℤ)
    (normalizeGroupName : JSString → JSString)
    (arrivals : List (StoredDirectoryRevision τ × Option RevisionCursor))
    (htotal : Consistent localeCompare (arrivals.map fun a => a.1.entryId))
    (hdistinct : Separates localeCompare (arrivals.map fun a => a.1.entryId)) (T : τ)
    (upToT : List (StoredDirectoryRevision τ))
    (hupToT : upToT.Perm
      ((lastArrivals (arrivals.map Prod.fst)).filter fun r => r.trustedTime ≤ T))
    (hsorted : upToT.Pairwise fun a b => compareRevisions localeCompare a b ≤ 0) :
    ((initial.upsertAll arrivals).rebuild localeCompare
        (projectDirectoryRevision normalizeGroupName)).getStateAt T
      = (replay (projectDirectoryRevision normalizeGroupName) .fresh upToT).head := by
  obtain ⟨stored, hstored⟩ :
      ∃ stored, stored = (initial.upsertAll arrivals).revisions.values := ⟨_, rfl⟩
  have hlast := perm_values_upsertAll arrivals
  rw [← hstored] at hlast
  have hsub : stored.map (fun r => r.entryId) ⊆ arrivals.map fun a => a.1.entryId := by
    intro id hid
    obtain ⟨r, hr, rfl⟩ := List.mem_map.mp hid
    obtain ⟨a, ha, rfl⟩ := List.mem_map.mp (mem_of_mem_latestBy (hlast.mem_iff.mp hr))
    exact List.mem_map.mpr ⟨a, ha, rfl⟩
  have hnodup : (stored.map fun r => r.entryId).Nodup := hstored ▸ nodup_entryIds arrivals
  have hcons := consistent_compareRevisions (htotal.of_subset hsub)
  have hsep := separates_compareRevisions hnodup (hdistinct.of_subset hsub)
  have htime : (sortBy (compareRevisions localeCompare) stored).Pairwise
      fun a b => a.trustedTime ≤ b.trustedTime := by
    refine (pairwise_sortBy hcons).imp fun {a b} hle => ?_
    rcases compareRevisions_le.mp hle with hlt | ⟨heq, -⟩
    · exact hlt.le
    · exact heq.le
  have hpre : upToT = sortBy (compareRevisions localeCompare) (stored.filter fun r => r.trustedTime ≤ T) :=
    eq_sortBy_of_pairwise (hcons.of_subset List.filter_sublist.subset)
      (hsep.of_subset List.filter_sublist.subset) (hupToT.trans (hlast.symm.filter _)) hsorted
  rw [hpre, ← filter_sortBy hcons hsep, hstored]
  exact nodeCovering_replay (extends_projectDirectoryRevision normalizeGroupName) (hstored ▸ htime)

/-- Two group documents, the first arriving late and once more with the time of its witness. -/
def restampedArrivals : List (StoredDirectoryRevision ℕ × Option RevisionCursor) :=
  let group (member : String) : JsonObject := [("form", .string "group"), ("type", .string "group"),
    ("groupName", .string "Staff"), ("members_hashes", .array [.string member])]
  [(⟨⟨"g1", group "alice", false, 7⟩, "e1", false⟩, none),
    (⟨⟨"g2", group "bob", false, 4⟩, "e2", true⟩, none),
    (⟨⟨"g1", group "alice", false, 3⟩, "e1", true⟩, none)]

theorem getStateAt_rebuild_restamped :
    ((initial.upsertAll restampedArrivals).rebuild (fun a b => if a < b then -1 else if b < a then 1 else 0)
        (projectDirectoryRevision id)).getStateAt 4
      = (replay (projectDirectoryRevision id) .fresh
          [(restampedArrivals.map Prod.fst)[2], (restampedArrivals.map Prod.fst)[1]]).head := by
  refine getStateAt_rebuild _ id restampedArrivals ?_ ?_ 4 _ (List.Perm.swap _ _ []) ?_
  · constructor <;> decide
  · unfold Separates
    decide
  · decide

end MindooDB
