import MindooDB.View.Reading

/-!
# View/Positions — positions along a run with reads

Batches and reads of positions follow one another in any order.  Every entry always has its place.
Its position is right, and leads a navigator to it, all along the run exactly when no batch numbers
an entry anew below which a position is remembered that is not forgotten in the same flush
(`positioned_run_iff`).
-/

namespace MindooDB

/-- What is done to a view: a batch, or a read of the position of an entry. -/
inductive ViewStep where
  | applyChanges (change : VirtualViewDataChange)
  | getPosition (path : EntryPath)
  | getPositionStr (path : EntryPath)

namespace VirtualView

variable (view : VirtualView)

def perform (s : ViewIndex) : ViewStep → ViewIndex
  | .applyChanges change => view.applyChanges s change
  | .getPosition path => s.readPosition path
  | .getPositionStr path => s.readPositionStr path

/-- A view after some steps. -/
def performAll (steps : List ViewStep) : ViewIndex := steps.foldl view.perform view.initial

variable {view} {s : ViewIndex}

theorem performAll_concat (steps : List ViewStep) (step : ViewStep) :
    view.performAll (steps ++ [step]) = view.perform (view.performAll steps) step := by
  rw [performAll, performAll, List.foldl_append]
  rfl

/-! ## What every step keeps -/

theorem renumbers_readPosition (s : ViewIndex) (path : EntryPath) :
    Relation.ReflTransGen Renumbers s (s.readPosition path) :=
  Relation.ReflTransGen.single (Renumbers.entry s path fun _ => ⟨_, _, _, _, rfl⟩)

theorem renumbers_readPositionStr (s : ViewIndex) (path : EntryPath) :
    Relation.ReflTransGen Renumbers s (s.readPositionStr path) := by
  rw [ViewIndex.readPositionStr]
  split
  · exact Relation.ReflTransGen.refl
  · exact (renumbers_readPosition s path).tail
      (Renumbers.entry _ path fun _ => ⟨_, _, _, _, rfl⟩)

/-- **A step keeps a view settled and numbered.** -/
theorem perform_spec (hs : Settled view.env s) (h : Flushed view.env s) (step : ViewStep) :
    Settled view.env (view.perform s step) ∧ Flushed view.env (view.perform s step) := by
  cases step with
  | applyChanges change =>
    exact ⟨settled_applyChanges change hs, flushed_flush (settled_beforeFlush change hs).tree
      (keeps_beforeFlush change hs h.placed).placed⟩
  | getPosition path =>
    exact ⟨settled_of_renumbers hs (renumbers_readPosition s path), h.readPosition path⟩
  | getPositionStr path =>
    exact ⟨settled_of_renumbers hs (renumbers_readPositionStr s path), h.readPositionStr path⟩

theorem flushed_initial : Flushed view.env view.initial := by
  refine ⟨fun p e sorted hget hcache => ?_, fun p k e hget => ?_⟩
  · rw [get?_initial] at hget
    split at hget
    · obtain rfl := Option.some.inj hget
      exact nomatch hcache
    · exact nomatch hget
  · rw [get?_initial, if_neg (by simp)] at hget
    exact nomatch hget

variable (view) in
theorem performAll_spec (steps : List ViewStep) :
    Settled view.env (view.performAll steps) ∧ Flushed view.env (view.performAll steps) := by
  induction steps using List.reverseRecOn with
  | nil => exact ⟨settled_initial, flushed_initial⟩
  | append_singleton steps step ih =>
    rw [performAll_concat]
    exact perform_spec ih.1 ih.2 step

/-- A step keeps what is remembered right, unless it is a batch that strands a position. -/
theorem remembered_perform_iff (hs : Settled view.env s) (h : Flushed view.env s)
    (hremembered : Remembered s) (step : ViewStep) : Remembered (view.perform s step)
      ↔ ∀ change, step = .applyChanges change → StaysPut view.env (view.beforeFlush change s) := by
  cases step with
  | applyChanges change =>
    have hkeeps := keeps_beforeFlush change hs h.placed
    have hiff := remembered_flush_iff (settled_beforeFlush change hs).tree hkeeps.placed
      (hkeeps.remembered hremembered)
    refine hiff.trans ⟨fun hstays other heq => ?_, fun hall => hall change rfl⟩
    obtain rfl := ViewStep.applyChanges.inj heq
    exact hstays
  | getPosition path =>
    exact ⟨nofun,
      fun _ => remembered_readPosition hremembered path⟩
  | getPositionStr path =>
    exact ⟨nofun,
      fun _ => remembered_readPositionStr hremembered path⟩

/-! ## Right positions -/

variable (view) in
/-- The tree that a navigator reads after some steps. -/
def readTree (steps : List ViewStep) : ViewTree EntryPath :=
  viewTree (performAll_spec view steps).1.tree (performAll_spec view steps).1.counts
    (performAll_spec view steps).2.cached

variable (view) in
/-- **Every entry has its place, its position, and is found at it.** -/
structure Positioned (steps : List ViewStep) : Prop where
  siblingIndex : ∀ k p e, (view.performAll steps).entries.get? (k :: p) = some e →
    0 < e.siblingIndex ∧ (((view.performAll steps).getChildEntries view.env p).map
      (·.toKey view.env))[e.siblingIndex - 1]? = some k
  getPosition : ∀ k p e, (view.performAll steps).entries.get? (k :: p) = some e →
    (view.performAll steps).getPosition (k :: p) = (view.performAll steps).siblingIndexes (k :: p)
  gotoPosArray : ∀ k p e, (view.performAll steps).entries.get? (k :: p) = some e →
    ∀ nav : Navigator (view.readTree steps), nav.topEntry = (view.readTree steps).root →
      nav.withCategories = true → nav.withDocuments = true → nav.accessCheck = none →
      ∃ landed, nav.gotoPosArray ((view.performAll steps).getPosition (k :: p)) = (true, landed)
        ∧ nav.getCurrentEntry landed = some (k :: p)

/-- It all comes down to what is remembered. -/
theorem positioned_iff (steps : List ViewStep) :
    view.Positioned steps ↔ Remembered (view.performAll steps) := by
  obtain ⟨hs, hflushed⟩ := performAll_spec view steps
  refine ⟨fun h => remembered_of_getPosition h.getPosition, fun h => ?_⟩
  refine ⟨fun k p e hget => ?_, fun k p e _ => getPosition_eq h,
    fun k p e hget nav hroot hcategories hdocuments hopen => ?_⟩
  · obtain ⟨e₀, i, he₀, hi, hplace⟩ := hflushed.numbered p k e hget
    obtain rfl := Option.some.inj (hget.symm.trans he₀)
    rw [hi]
    exact ⟨Nat.succ_pos i, hplace⟩
  · rw [getPosition_eq h]
    exact gotoPosArray_siblingIndexes hs.filled hflushed.numbered nav hroot hcategories hdocuments
      hopen hget

end VirtualView

open VirtualView

/-- **Positions are right all along a run of batches and reads** exactly when no batch strands a
position. -/
theorem positioned_run_iff (view : VirtualView) (steps : List ViewStep) :
    (∀ before, before <+: steps → view.Positioned before)
      ↔ ∀ before change, before ++ [.applyChanges change] <+: steps →
          StaysPut view.env (view.beforeFlush change (view.performAll before)) := by
  induction steps using List.reverseRecOn with
  | nil =>
    refine ⟨fun _ before change h => absurd h (by simp), fun _ before h => ?_⟩
    rw [List.prefix_nil.mp h, positioned_iff]
    intro k p e position hget
    rw [performAll, List.foldl_nil, get?_initial, if_neg (by simp)] at hget
    exact absurd hget (by simp)
  | append_singleton steps step ih =>
    rw [forall_prefix_concat, ih]
    have hsplit : (∀ before change, before ++ [.applyChanges change] <+: steps ++ [step] →
          StaysPut view.env (view.beforeFlush change (view.performAll before)))
        ↔ (∀ before change, before ++ [.applyChanges change] <+: steps →
            StaysPut view.env (view.beforeFlush change (view.performAll before)))
          ∧ ∀ change, step = .applyChanges change →
            StaysPut view.env (view.beforeFlush change (view.performAll steps)) := by
      simp only [List.prefix_concat_iff, List.append_singleton_inj]
      constructor
      · exact fun h => ⟨fun before change hb => h before change (Or.inr hb),
          fun change heq => h steps change (Or.inl ⟨rfl, heq.symm⟩)⟩
      · rintro ⟨h, hlast⟩ before change (⟨rfl, heq⟩ | hb)
        · exact hlast change heq.symm
        · exact h before change hb
    rw [hsplit]
    refine and_congr_right fun hbefore => ?_
    obtain ⟨hs, hflushed⟩ := performAll_spec view steps
    have hremembered := (positioned_iff steps).mp (ih.mpr hbefore steps List.prefix_rfl)
    rw [positioned_iff, performAll_concat, remembered_perform_iff hs hflushed hremembered]

/-- A batch of one document of a kind. -/
def addOfKind (docId kind : JSString) : VirtualViewDataChange :=
  { origin := "o"
    additions := (∅ : LinkedMap JSString EntryData).set docId
      ⟨(∅ : ColumnValues).set "kind" (.string kind), none⟩ }

/-- The entry of the document `e`, which is of kind `b`. -/
def secondPath : EntryPath :=
  [⟨false, [.endArray], "o:e"⟩, ⟨true, [.string "b", .comma, .endArray], "virtualview:"⟩]

/-- The category before that of `e` goes while the position of `e` is remembered. -/
def removeBefore : List ViewStep :=
  [.applyChanges (addOfKind "d" "a"), .applyChanges (addOfKind "e" "b"), .getPosition secondPath,
    .applyChanges { origin := "o", removals := LinkedSet.ofList ["d"] }]

/-- The document still says 2.1, where it is 1.1. -/
theorem not_positioned_removeBefore : ¬byKind.Positioned removeBefore := by
  intro h
  have hsome : ((byKind.performAll removeBefore).entries.get? secondPath).isSome = true := by decide
  obtain ⟨e, he⟩ := Option.isSome_iff_exists.mp hsome
  have hposition := h.getPosition _ _ e he
  revert hposition
  decide

end MindooDB
