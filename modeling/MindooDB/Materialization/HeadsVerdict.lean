import MindooDB.Materialization.Agreement

/-!
# Materialization/HeadsVerdict — what decides whether a document is deleted

`isDeletedFromHeads` over any replay graph and any heads.  The lifecycle entries below the heads
that no other of them rests on **decide** (`Decides`).  On an acyclic graph every lifecycle entry is
below one that decides, those that decide are concurrent, and only between them do the clocks count:
the verdict is the latest one's (`isDeletedFromHeads_spec`).  So an entry that all the others are below
decides alone, whatever the clocks say.
-/

namespace MindooDB

open LinkedMap LinkedSet List ReadyOrder Relation

section Graph

variable (replayById : EntryMap) (headEntryIds : List JSString)

/-- An entry of the map rests on another of the map. -/
def RestsOn (id dep : JSString) : Prop :=
  Walk.Edge replayById.has (dependenciesOf replayById) id dep

/-- The ancestor closure of the heads. -/
def InClosure (id : JSString) : Prop :=
  Walk.Reachable replayById.has (dependenciesOf replayById) headEntryIds id

/-- A lifecycle entry below the heads. -/
def TerminalBelow (id : JSString) : Prop :=
  InClosure replayById headEntryIds id ∧ isLifecycleTerminal replayById id = true

/-- A lifecycle entry below the heads that is an ancestor of no other of them. -/
def Decides (id : JSString) : Prop :=
  TerminalBelow replayById headEntryIds id ∧
    ∀ other, TerminalBelow replayById headEntryIds other → other ≠ id →
      ¬ReflTransGen (RestsOn replayById) other id

/-- The entries that decide, as `isDeletedFromHeads` collects them. -/
def decidingEntries : List StoreEntryMetadata :=
  (survivingTerminalIds replayById (reachableTerminalIds headEntryIds replayById).toList).filterMap
    replayById.get?

/-- Every entry stands under its own id. -/
def KeyedById : Prop := ∀ id e, replayById.get? id = some e → e.id = id

end Graph

variable {replayById : EntryMap} {headEntryIds : List JSString}

theorem keyedById_entriesById (entries : List StoreEntryMetadata) :
    KeyedById (entriesById entries) := by
  have hkept : ∀ (l : List StoreEntryMetadata) (m : EntryMap), KeyedById m →
      KeyedById ((l.map fun e => (e.id, e)).foldl (fun m p => m.set p.1 p.2) m) := by
    intro l
    induction l with
    | nil => exact fun _ hm => hm
    | cons e l ih =>
      intro m hm
      refine ih _ fun id e' hget => ?_
      rw [get?_set] at hget
      split at hget
      · rename_i hid
        obtain rfl := Option.some.inj hget
        exact hid.symm
      · exact hm id e' hget
  exact hkept entries ∅ (by simp [KeyedById])

theorem TerminalBelow.has {id : JSString} (h : TerminalBelow replayById headEntryIds id) :
    replayById.has id = true := Walk.Reachable.accepted h.1

/-! ## The walks -/

theorem mem_keys_of_dependenciesOf {id : JSString} (h : dependenciesOf replayById id ≠ []) :
    id ∈ replayById.keys := by
  rw [dependenciesOf] at h
  split at h
  · exact absurd rfl h
  · exact mem_keys_iff.mpr ⟨_, ‹_›⟩

theorem mem_collectReplayAncestors_iff {start id : JSString} :
    id ∈ collectReplayAncestors replayById start
      ↔ replayById.has start = true ∧ ReflTransGen (RestsOn replayById) start id := by
  obtain ⟨ancestors, hwalk, hancestors⟩ := Walk.walk_spec replayById.has
    (fun v _ => mem_keys_of_dependenciesOf) (le_refl (walkFuel replayById [start]))
  rw [collectReplayAncestors, hwalk, Option.getD_some, hancestors]
  simp only [Walk.Reachable, mem_singleton, exists_eq_left]
  exact Iff.rfl

theorem mem_reachableTerminalIds {id : JSString} :
    id ∈ (reachableTerminalIds headEntryIds replayById).toList
      ↔ TerminalBelow replayById headEntryIds id := by
  rw [← mem_def, reachableTerminalIds, mem_foldl_addAll]
  simp only [notMem_empty, false_or, mem_filter, ← mem_def, mem_collectReplayAncestors_iff]
  constructor
  · rintro ⟨head, hhead, ⟨hhas, hreach⟩, hterminal⟩
    exact ⟨⟨head, hhead, hhas, hreach⟩, hterminal⟩
  · rintro ⟨⟨head, hhead, hhas, hreach⟩, hterminal⟩
    exact ⟨head, hhead, ⟨hhas, hreach⟩, hterminal⟩

theorem mem_survivingTerminalIds_iff {id : JSString} :
    id ∈ survivingTerminalIds replayById (reachableTerminalIds headEntryIds replayById).toList
      ↔ Decides replayById headEntryIds id := by
  rw [survivingTerminalIds, mem_filter, mem_reachableTerminalIds]
  refine and_congr_right fun _ => ?_
  rw [Bool.not_eq_true', any_eq_false]
  simp only [mem_reachableTerminalIds, Bool.and_eq_true, decide_eq_true_eq,
    mem_collectReplayAncestors_iff, not_and]
  refine forall_congr' fun other => ⟨fun h hterminal hne => ?_, fun h hterminal hne _ => ?_⟩
  · exact h hterminal hne hterminal.has
  · exact h hterminal hne

theorem mem_decidingEntries {e : StoreEntryMetadata} :
    e ∈ decidingEntries replayById headEntryIds
      ↔ ∃ id, Decides replayById headEntryIds id ∧ replayById.get? id = some e := by
  simp only [decidingEntries, mem_filterMap, mem_survivingTerminalIds_iff]

/-- Heads with one closure have the same entries decide. -/
theorem decidingEntries_perm {headEntryIds' : List JSString}
    (hsame : ∀ id, InClosure replayById headEntryIds' id ↔ InClosure replayById headEntryIds id) :
    (decidingEntries replayById headEntryIds').Perm (decidingEntries replayById headEntryIds) := by
  have hdecides : ∀ id, Decides replayById headEntryIds' id ↔ Decides replayById headEntryIds id := by
    intro id
    simp only [Decides, TerminalBelow, hsame]
  refine List.Perm.filterMap _ ((perm_ext_iff_of_nodup ?_ ?_).mpr fun id => ?_)
  · exact (nodup _).filter _
  · exact (nodup _).filter _
  · rw [mem_survivingTerminalIds_iff, mem_survivingTerminalIds_iff, hdecides]

/-! ## What decides -/

/-- **Every lifecycle entry below the heads is below one that decides.** -/
theorem exists_decides (hacyclic : Acyclic (RestsOn replayById)) {id : JSString}
    (h : TerminalBelow replayById headEntryIds id) :
    ∃ top, Decides replayById headEntryIds top ∧ ReflTransGen (RestsOn replayById) top id := by
  let above : Set JSString := {other | TerminalBelow replayById headEntryIds other ∧
    ReflTransGen (RestsOn replayById) other id}
  have hfinite : above.Finite :=
    (finite_toSet replayById.keys).subset fun other hother =>
      mem_keys_iff_has.mpr hother.1.has
  -- the converse relation is acyclic too, and a topmost entry is a minimal one for it
  have hconverse : Acyclic fun below other => TransGen (RestsOn replayById) other below := by
    intro other hother
    have hswap : TransGen (TransGen (RestsOn replayById)) other other := transGen_swap.mp hother
    exact hacyclic other (TransGen.closed (fun _ _ hstep => hstep) _ _ hswap)
  obtain ⟨top, ⟨htop, htopid⟩, hmax⟩ :=
    exists_minimal hfinite hconverse ⟨id, h, .refl⟩
  refine ⟨top, ⟨htop, fun other hother hne hreach => ?_⟩, htopid⟩
  refine hmax other ⟨hother, hreach.trans htopid⟩ ?_
  rcases reflTransGen_iff_eq_or_transGen.mp hreach with heq | hstep
  · exact absurd heq.symm hne
  · exact hstep

/-- An entry that all the others are below is the only one that decides. -/
theorem decides_iff_eq (hacyclic : Acyclic (RestsOn replayById)) {id : JSString}
    (hid : TerminalBelow replayById headEntryIds id)
    (hall : ∀ other, TerminalBelow replayById headEntryIds other →
      ReflTransGen (RestsOn replayById) id other) (top : JSString) :
    Decides replayById headEntryIds top ↔ top = id := by
  constructor
  · intro htop
    by_contra hne
    exact htop.2 id hid (Ne.symm hne) (hall top htop.1)
  · rintro rfl
    refine ⟨hid, fun other hother hne hreach => ?_⟩
    rcases reflTransGen_iff_eq_or_transGen.mp hreach with heq | hstep
    · exact hne heq.symm
    · exact hacyclic top (hstep.trans_right (hall other hother))

/-! ## The verdict -/

section Verdict

variable {localeCompare : JSString → JSString → ℤ}

theorem isDeletedFromHeads_getLast? :
    isDeletedFromHeads localeCompare headEntryIds replayById
      = (sortBy (compareByCreatedAtThenId localeCompare)
          (decidingEntries replayById headEntryIds)).getLast?.any
            fun e => e.entryType = .docDelete := rfl

variable (headEntryIds) in
/-- Entries of the map with one time and one id are the same. -/
theorem separates_decidingEntries (horders : Orders localeCompare)
    (hseparates : Separates localeCompare replayById.keys) (hkeyed : KeyedById replayById) :
    Separates (compareByCreatedAtThenId localeCompare) (decidingEntries replayById headEntryIds) := by
  have hcmp := orders_compareByCreatedAtThenId horders
  have hget : ∀ e ∈ decidingEntries replayById headEntryIds, replayById.get? e.id = some e := by
    intro e he
    obtain ⟨id, -, hget⟩ := mem_decidingEntries.mp he
    rwa [hkeyed id e hget]
  intro e he e' he' hle hge
  have hzero := hcmp.eq_zero hle hge
  have hid : localeCompare e.id e'.id = 0 := by
    rw [compareByCreatedAtThenId] at hzero
    split at hzero
    · omega
    · exact hzero
  have hkey : ∀ {e}, replayById.get? e.id = some e → e.id ∈ replayById.keys := fun h =>
    mem_keys_iff.mpr ⟨_, h⟩
  have hsame := hseparates _ (hkey (hget e he)) _ (hkey (hget e' he')) hid.le
    (horders.swap_le _ _ |>.mpr hid.ge)
  exact Option.some.inj ((hget e he).symm.trans ((congrArg replayById.get? hsame).trans (hget e' he')))

/-- The last of a sorted list comes after all the others. -/
theorem compare_getLast_nonpos (horders : Orders localeCompare) {l : List StoreEntryMetadata}
    {last : StoreEntryMetadata}
    (hlast : (sortBy (compareByCreatedAtThenId localeCompare) l).getLast? = some last) :
    ∀ e ∈ l, compareByCreatedAtThenId localeCompare e last ≤ 0 := by
  have hcmp := orders_compareByCreatedAtThenId horders
  obtain ⟨init, hinit⟩ := getLast?_eq_some_iff.mp hlast
  have hsorted := pairwise_sortBy (hcmp.consistent l)
  rw [hinit] at hsorted
  intro e he
  have hmem : e ∈ init ++ [last] := by
    rw [← hinit]
    exact mem_sortBy.mpr he
  rcases mem_append.mp hmem with hfront | hback
  · exact (pairwise_append.mp hsorted).2.2 e hfront last (mem_singleton_self _)
  · rw [mem_singleton.mp hback]
    exact (hcmp.self last).le

/-- **The verdict is a matter of the closure, of causality and only then of the clocks.** -/
theorem isDeletedFromHeads_spec (horders : Orders localeCompare)
    (hseparates : Separates localeCompare replayById.keys) (hkeyed : KeyedById replayById)
    (hacyclic : Acyclic (RestsOn replayById)) (headEntryIds : List JSString) :
    (∀ headEntryIds',
        (∀ id, InClosure replayById headEntryIds' id ↔ InClosure replayById headEntryIds id) →
        isDeletedFromHeads localeCompare headEntryIds' replayById
          = isDeletedFromHeads localeCompare headEntryIds replayById)
      ∧ (∀ id e, replayById.get? id = some e → TerminalBelow replayById headEntryIds id →
        (∀ other, TerminalBelow replayById headEntryIds other → other ≠ id →
          ReflTransGen (RestsOn replayById) id other) →
        isDeletedFromHeads localeCompare headEntryIds replayById = decide (e.entryType = .docDelete))
      ∧ ((∀ id, ¬TerminalBelow replayById headEntryIds id) ∧
          isDeletedFromHeads localeCompare headEntryIds replayById = false
        ∨ ∃ latest e, Decides replayById headEntryIds latest ∧ replayById.get? latest = some e ∧
          isDeletedFromHeads localeCompare headEntryIds replayById
            = decide (e.entryType = .docDelete) ∧
          ∀ other e', Decides replayById headEntryIds other → replayById.get? other = some e' →
            other ≠ latest → compareByCreatedAtThenId localeCompare e' e < 0 ∧
              ¬ReflTransGen (RestsOn replayById) other latest ∧
              ¬ReflTransGen (RestsOn replayById) latest other) := by
  have hcmp := orders_compareByCreatedAtThenId horders
  have hseparates' := separates_decidingEntries headEntryIds horders hseparates hkeyed
  have hlatest : (∀ id, ¬TerminalBelow replayById headEntryIds id) ∧
        isDeletedFromHeads localeCompare headEntryIds replayById = false
      ∨ ∃ latest e, Decides replayById headEntryIds latest ∧ replayById.get? latest = some e ∧
        isDeletedFromHeads localeCompare headEntryIds replayById
          = decide (e.entryType = .docDelete) ∧
        ∀ other e', Decides replayById headEntryIds other → replayById.get? other = some e' →
          other ≠ latest → compareByCreatedAtThenId localeCompare e' e < 0 ∧
            ¬ReflTransGen (RestsOn replayById) other latest ∧
            ¬ReflTransGen (RestsOn replayById) latest other := by
    rw [isDeletedFromHeads_getLast?]
    cases hlast : (sortBy (compareByCreatedAtThenId localeCompare)
        (decidingEntries replayById headEntryIds)).getLast? with
    | none =>
      refine Or.inl ⟨fun id hid => ?_, rfl⟩
      obtain ⟨top, htop, -⟩ := exists_decides hacyclic hid
      obtain ⟨e, he⟩ := has_iff.mp htop.1.has
      have hmem : e ∈ sortBy (compareByCreatedAtThenId localeCompare)
          (decidingEntries replayById headEntryIds) :=
        mem_sortBy.mpr (mem_decidingEntries.mpr ⟨top, htop, he⟩)
      rw [getLast?_eq_none_iff.mp hlast] at hmem
      exact not_mem_nil hmem
    | some e =>
      have he := mem_sortBy.mp (mem_of_getLast? hlast)
      obtain ⟨latest, hdecides, hget⟩ := mem_decidingEntries.mp he
      refine Or.inr ⟨latest, e, hdecides, hget, rfl, fun other e' hother hget' hne => ⟨?_, ?_, ?_⟩⟩
      · have he' := mem_decidingEntries.mpr ⟨other, hother, hget'⟩
        have hle := compare_getLast_nonpos horders hlast e' he'
        refine lt_of_le_of_ne hle fun hzero => hne ?_
        have hsame := hseparates' e' he' e he hle ((hcmp.swap_le e' e).mpr hzero.ge)
        rw [← hkeyed other e' hget', ← hkeyed latest e hget, hsame]
      · exact hdecides.2 other hother.1 hne
      · exact hother.2 latest hdecides.1 (Ne.symm hne)
  refine ⟨fun headEntryIds' hsame => ?_, fun id e hget hid hall => ?_, hlatest⟩
  · rw [isDeletedFromHeads_getLast?, isDeletedFromHeads_getLast?,
      sortBy_eq_of_perm (hcmp.consistent _) hseparates' (decidingEntries_perm hsame)]
  · have hall' : ∀ other, TerminalBelow replayById headEntryIds other →
        ReflTransGen (RestsOn replayById) id other := fun other hother => by
      by_cases hother' : other = id
      · exact hother' ▸ .refl
      · exact hall other hother hother'
    rcases hlatest with ⟨hnone, -⟩ | ⟨latest, e', hdecides, hget', hverdict, -⟩
    · exact absurd hid (hnone id)
    · obtain rfl := (decides_iff_eq hacyclic hid hall' latest).mp hdecides
      rw [hverdict, Option.some.inj (hget'.symm.trans hget)]

/-- A change, a delete of it, and an undelete of that by a clock that runs behind. -/
def skewedEntries : List StoreEntryMetadata :=
  [.unwitnessed .docChange "c" "d" "h" [] 5, .unwitnessed .docDelete "x" "d" "h" ["c"] 9,
    .unwitnessed .docUndelete "u" "d" "h" ["x"] 1]

theorem acyclic_skewedEntries : Acyclic (RestsOn (entriesById skewedEntries)) := by
  let rank : JSString → ℕ := fun id => if id = "u" then 2 else if id = "x" then 1 else 0
  have hrank : ∀ id ∈ (entriesById skewedEntries).keys,
      ∀ dep ∈ dependenciesOf (entriesById skewedEntries) id, rank dep < rank id := by decide +kernel
  refine acyclic_of_rank rank fun id dep hdep => hrank id ?_ dep hdep.1
  exact mem_keys_of_dependenciesOf (ne_nil_of_mem hdep.1)

/-- The undelete decides. -/
theorem isDeletedFromHeads_spec_skewedEntries :
    isDeletedFromHeads compareByOrder ["u"] (entriesById skewedEntries) = false := by
  have hroot : TerminalBelow (entriesById skewedEntries) ["u"] "u" :=
    ⟨⟨"u", mem_singleton_self _, by decide +kernel, .refl⟩, by decide +kernel⟩
  have hedge : RestsOn (entriesById skewedEntries) "u" "x" :=
    ⟨by decide +kernel, by decide +kernel⟩
  refine (isDeletedFromHeads_spec Orders.ofLinearOrder (separates_compareByOrder _)
    (keyedById_entriesById _) acyclic_skewedEntries ["u"]).2.1 "u"
      (.unwitnessed .docUndelete "u" "d" "h" ["x"] 1) (by decide +kernel) hroot ?_
  intro other hother hne
  have hterminals : ∀ id ∈ (entriesById skewedEntries).keys,
      isLifecycleTerminal (entriesById skewedEntries) id = true → id = "u" ∨ id = "x" := by
    decide +kernel
  rcases hterminals other (mem_keys_iff_has.mpr hother.has) hother.2 with rfl | rfl
  · exact absurd rfl hne
  · exact .single hedge

end Verdict

end MindooDB
