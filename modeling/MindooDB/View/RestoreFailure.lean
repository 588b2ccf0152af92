import MindooDB.View.CacheRestore

/-!
# View/RestoreFailure — what a failed restoration leaves behind

The providers are moved before the tree is looked at, and a node is listed as soon as it is built.
So a restoration that fails leaves everything as it was just where it has come to none of this
(`restoreFromCache_unchanged_iff`): it moved no provider, and then there was no tree or not even its
root could be built.
-/

namespace MindooDB

open JsValue LinkedMap List

variable {rt : CacheRuntime} {docOrderDesc : Json}

/-! ## The providers -/

/-- The same cursor and the same known documents. -/
structure SameProvider (p p' : CachedProvider) : Prop where
  cursor : p'.cursor = p.cursor
  known : ∀ docId, docId ∈ p'.knownDocIds ↔ docId ∈ p.knownDocIds

theorem SameProvider.refl (p : CachedProvider) : SameProvider p p := ⟨rfl, fun _ => Iff.rfl⟩

/-- Every provider with the same cursor and the same known documents. -/
def SameProviders (m m' : LinkedMap JSString CachedProvider) : Prop :=
  ∀ origin p, m.get? origin = some p → ∃ p', m'.get? origin = some p' ∧ SameProvider p p'

theorem SameProviders.refl (m : LinkedMap JSString CachedProvider) : SameProviders m m :=
  fun _ p h => ⟨p, h, SameProvider.refl p⟩

/-- What a state says of the known documents, when it says anything that can be read. -/
def statedDocIds (state : Json) : Option (List Json) :=
  let known := (JsValue.get (some state) "knownDocIds").getD none
  if JsValue.truthy known then iterate known else none

/-- The cursor that a state has in a field. -/
def statedCursor (cursorField : JSString) (missing state : Json) : Json :=
  let cursor := (JsValue.get (some state) cursorField).getD none
  if isNullish cursor then missing else cursor.getD .null

/-- A state that is no `null`, and whose known documents can be iterated if there are any. -/
def isReadable (state : Json) : Bool :=
  let known := (JsValue.get (some state) "knownDocIds").getD none
  !isNullish (some state) && (!JsValue.truthy known || (iterate known).isSome)

namespace ProviderKind

/-- The field of the cursor of a kind of provider, and what stands for a missing one. -/
def cursorField : ProviderKind → Option (JSString × Json)
  | documents => some ("cursor", .null)
  | summary => some ("appliedChangeSeq", .number (some (-1)))
  | other => none

/-- Whether a provider of a kind reads a state to its end. -/
def accepts (kind : ProviderKind) (state : Json) : Bool :=
  kind.cursorField.isNone || isReadable state

end ProviderKind

/-- **A state that says of a provider what it is already.** -/
def LeavesAlone (p : CachedProvider) (state : Json) : Prop :=
  ∀ cursorField missing, p.kind.cursorField = some (cursorField, missing) → state ≠ .null →
    statedCursor cursorField missing state = p.cursor
      ∧ ∀ items, statedDocIds state = some items →
        ∀ docId, docId ∈ newSet items ↔ docId ∈ p.knownDocIds

namespace CachedProvider

variable (p : CachedProvider) (state : Json)

theorem importCacheState_eq : p.importCacheState state
    = match p.kind.cursorField with
      | some (cursorField, missing) => p.importState cursorField missing state
      | none => (p, true) := by
  rw [importCacheState]
  cases p.kind <;> rfl

theorem importState_of_ne_null (cursorField : JSString) (missing : Json) (h : state ≠ .null) :
    p.importState cursorField missing state
      = ({ p with
          cursor := statedCursor cursorField missing state
          knownDocIds := ((statedDocIds state).map newSet).getD p.knownDocIds }, isReadable state) := by
  obtain ⟨known, hknown⟩ : ∃ known, JsValue.get (some state) "knownDocIds" = some known := by
    cases state <;> first | exact absurd rfl h | exact ⟨_, rfl⟩
  obtain ⟨cursor, hcursor⟩ : ∃ cursor, JsValue.get (some state) cursorField = some cursor := by
    cases state <;> first | exact absurd rfl h | exact ⟨_, rfl⟩
  have hnullish : isNullish (some state) = false := by
    cases state <;> first | exact absurd rfl h | rfl
  rw [importState, statedCursor, statedDocIds, isReadable, hcursor, hknown, hnullish]
  simp only [Option.getD_some]
  cases htruthy : JsValue.truthy known with
  | false => simp
  | true => cases hiterate : iterate known <;> simp

/-- Whether the import of a state comes to its end. -/
theorem importCacheState_done : (p.importCacheState state).2 = p.kind.accepts state := by
  rw [importCacheState_eq, ProviderKind.accepts]
  cases p.kind.cursorField with
  | none => rfl
  | some field =>
    by_cases hnull : state = .null
    · subst hnull
      rfl
    · simp only [importState_of_ne_null p state _ _ hnull]
      rfl

/-- **The import of a state moves a provider, unless the state leaves it alone.** -/
theorem sameProvider_importCacheState_iff :
    SameProvider p (p.importCacheState state).1 ↔ LeavesAlone p state := by
  rw [importCacheState_eq, LeavesAlone]
  cases hfield : p.kind.cursorField with
  | none => exact iff_of_true (SameProvider.refl p) nofun
  | some field =>
    obtain ⟨cursorField, missing⟩ := field
    by_cases hnull : state = .null
    · subst hnull
      exact iff_of_true (SameProvider.refl p) fun _ _ _ h => absurd rfl h
    · simp only [importState_of_ne_null p state _ _ hnull]
      constructor
      · rintro ⟨hcursor, hknown⟩ _ _ hsome -
        obtain ⟨rfl, rfl⟩ := Prod.mk.inj (Option.some.inj hsome)
        refine ⟨hcursor, fun items hitems => ?_⟩
        rw [hitems] at hknown
        exact hknown
      · intro h
        obtain ⟨hcursor, hknown⟩ := h _ _ rfl hnull
        refine ⟨hcursor, ?_⟩
        cases hstated : statedDocIds state with
        | none => exact fun _ => Iff.rfl
        | some items => exact hknown items hstated

end CachedProvider

/-- Whether a state reaches a provider that does not read it to its end. -/
def throwsOn (providers : LinkedMap JSString CachedProvider) (e : JSString × Json) : Bool :=
  (providers.get? e.1).any fun p => !p.kind.accepts e.2

/-- The states up to the first that throws. -/
def handledStates (providers : LinkedMap JSString CachedProvider) :
    List (JSString × Json) → List (JSString × Json)
  | [] => []
  | e :: rest => e :: if throwsOn providers e then [] else handledStates providers rest

section Import

variable {providers : LinkedMap JSString CachedProvider} {states : List (JSString × Json)}

theorem handledStates_subset : handledStates providers states ⊆ states := by
  induction states with
  | nil => exact List.Subset.refl _
  | cons e states ih =>
    rw [handledStates]
    refine cons_subset_cons e ?_
    split
    · exact nil_subset _
    · exact ih

theorem handledStates_congr {providers' : LinkedMap JSString CachedProvider}
    (h : ∀ e ∈ states, throwsOn providers e = throwsOn providers' e) :
    handledStates providers states = handledStates providers' states := by
  induction states with
  | nil => rfl
  | cons e states ih =>
    rw [handledStates, handledStates, h e mem_cons_self,
      ih fun e' he' => h e' (mem_cons_of_mem _ he')]

/-- What one import changes matters to the states of that origin only. -/
theorem throwsOn_set {origin : JSString} {p : CachedProvider} {e : JSString × Json}
    (h : e.1 ≠ origin) : throwsOn (providers.set origin p) e = throwsOn providers e := by
  rw [throwsOn, throwsOn, get?_set_of_ne _ _ h]

variable (providers) in
theorem importProviderStates_done (hnodup : (states.map Prod.fst).Nodup) :
    (importProviderStates states providers).2 = true ↔ ∀ e ∈ states, throwsOn providers e = false := by
  induction states generalizing providers with
  | nil => simp [importProviderStates]
  | cons e states ih =>
    obtain ⟨origin, state⟩ := e
    obtain ⟨hnotMem, hnodup⟩ := nodup_cons.mp hnodup
    rw [importProviderStates, forall_mem_cons, throwsOn]
    cases hget : providers.get? origin with
    | none => simpa [hget] using ih _ hnodup
    | some p =>
      have hset : ∀ p' : CachedProvider, (∀ e ∈ states,
          throwsOn (providers.set origin p') e = false) ↔ ∀ e ∈ states, throwsOn providers e = false :=
        fun p' => forall₂_congr fun e he => by
          rw [throwsOn_set fun heq => hnotMem (mem_map.mpr ⟨e, he, heq⟩)]
      cases haccepts : p.kind.accepts state with
      | false =>
        simp [CachedProvider.importCacheState_done, haccepts]
      | true =>
        simp only [CachedProvider.importCacheState_done, haccepts, if_true]
        rw [ih _ hnodup, hset]
        simp [haccepts]

/-- The states of other origins change nothing of a provider. -/
theorem get?_importProviderStates_of_notMem {origin : JSString}
    (h : origin ∉ states.map Prod.fst) :
    (importProviderStates states providers).1.get? origin = providers.get? origin := by
  induction states generalizing providers with
  | nil => rfl
  | cons e states ih =>
    obtain ⟨other, state⟩ := e
    rw [map_cons, mem_cons, not_or] at h
    rw [importProviderStates]
    cases hget : providers.get? other with
    | none => exact ih h.2
    | some p =>
      have hset := get?_set_of_ne providers (p.importCacheState state).1 h.1
      simp only
      split
      · rw [ih h.2, hset]
      · exact hset

variable (providers) in
/-- **The states of a snapshot move no provider just where all those handled leave theirs alone.** -/
theorem sameProviders_importProviderStates_iff (hnodup : (states.map Prod.fst).Nodup) :
    SameProviders providers (importProviderStates states providers).1
      ↔ ∀ e ∈ handledStates providers states, ∀ p, providers.get? e.1 = some p →
        LeavesAlone p e.2 := by
  induction states generalizing providers with
  | nil => exact iff_of_true (SameProviders.refl _) nofun
  | cons e states ih =>
    obtain ⟨origin, state⟩ := e
    obtain ⟨hnotMem, hnodup⟩ := nodup_cons.mp hnodup
    rw [importProviderStates, handledStates, forall_mem_cons]
    cases hget : providers.get? origin with
    | none =>
      have hthrows : throwsOn providers (origin, state) = false := by rw [throwsOn, hget]; rfl
      rw [hthrows, ih _ hnodup]
      simp
    | some p =>
      have hthrows : throwsOn providers (origin, state) = !p.kind.accepts state := by
        rw [throwsOn, hget]
        rfl
      have hone : (∀ p', some p = some p' → LeavesAlone p' state)
          ↔ SameProvider p (p.importCacheState state).1 := by
        rw [CachedProvider.sameProvider_importCacheState_iff]
        exact ⟨fun h => h p rfl, fun h p' heq => Option.some.inj heq ▸ h⟩
      rw [hone, hthrows]
      simp only [CachedProvider.importCacheState_done]
      -- the provider of the first state is not touched again
      have hsplit : ∀ m : LinkedMap JSString CachedProvider,
          m.get? origin = some (p.importCacheState state).1 →
            (SameProviders providers m ↔ SameProvider p (p.importCacheState state).1
              ∧ SameProviders (providers.set origin (p.importCacheState state).1) m) := by
        intro m hm
        constructor
        · intro h
          refine ⟨?_, fun other q hq => ?_⟩
          · obtain ⟨p', hp', hsame⟩ := h origin p hget
            rwa [← Option.some.inj (hm.symm.trans hp')] at hsame
          · by_cases heq : other = origin
            · subst heq
              rw [get?_set_self] at hq
              exact ⟨q, hq ▸ hm, SameProvider.refl q⟩
            · rw [get?_set_of_ne _ _ heq] at hq
              exact h other q hq
        · rintro ⟨hp, h⟩ other q hq
          by_cases heq : other = origin
          · subst heq
            exact ⟨_, hm, Option.some.inj (hget.symm.trans hq) ▸ hp⟩
          · exact h other q ((get?_set_of_ne _ _ heq).trans hq)
      cases haccepts : p.kind.accepts state with
      | false =>
        simp only [Bool.not_false, if_true, Bool.false_eq_true, if_false]
        rw [hsplit _ (get?_set_self _ _ _)]
        exact and_congr_right fun _ =>
          iff_of_true (SameProviders.refl _) nofun
      | true =>
        simp only [Bool.not_true, Bool.false_eq_true, if_false, if_true]
        rw [hsplit _ ((get?_importProviderStates_of_notMem hnotMem).trans
          (get?_set_self _ _ _)), ih _ hnodup]
        refine and_congr_right fun _ => ?_
        have hne : ∀ e ∈ states, e.1 ≠ origin := fun e he heq =>
          hnotMem (mem_map.mpr ⟨e, he, heq⟩)
        rw [handledStates_congr fun e he => throwsOn_set (hne e he)]
        refine forall₂_congr fun e he => ?_
        rw [get?_set_of_ne _ _ (hne e (handledStates_subset he))]

end Import

/-! ## The tree -/

variable (rt docOrderDesc) in
/-- Whether the entry of a node can be built. -/
def builds (nodeData : Json) : Bool := (entryKey rt docOrderDesc nodeData).isSome

variable (rt docOrderDesc) in
/-- **A node below which everything can be restored**: it has no children, or they can be iterated,
built, and hung up by their sort keys, and everything below them can be restored. -/
inductive Restorable : Json → Prop where
  | leaf {nodeData : Json} (h : JsValue.truthy (childrenOf nodeData) = false) : Restorable nodeData
  | node {nodeData : Json} {children : List Json} (h : JsValue.truthy (childrenOf nodeData) = true)
      (hiterate : iterate (childrenOf nodeData) = some children)
      (hbuilds : ∀ child ∈ children, (builds rt docOrderDesc child && hasSortKeyText rt child) = true)
      (hchildren : ∀ child ∈ children, Restorable child) : Restorable nodeData

/-- No list of the table gets shorter. -/
def Grows (table table' : LookupTable) : Prop :=
  ∀ key, ((table.get? key).getD []).length ≤ ((table'.get? key).getD []).length

theorem Grows.refl (table : LookupTable) : Grows table table := fun _ => le_rfl

theorem Grows.trans {t t' t'' : LookupTable} (h : Grows t t') (h' : Grows t' t'') : Grows t t'' :=
  fun key => (h key).trans (h' key)

section Table

variable {table table' : LookupTable} {nodeData : Json} {children stack : List Json}

theorem buildEntry_eq_none : buildEntry rt docOrderDesc nodeData table = none
    ↔ builds rt docOrderDesc nodeData = false := by
  rw [buildEntry, builds, Option.map_eq_none_iff, Option.isSome_eq_false_iff, Option.isNone_iff_eq_none]

/-- A node that is built is listed. -/
theorem grows_buildEntry (h : buildEntry rt docOrderDesc nodeData table = some table') :
    Grows table table' ∧ ∃ key,
      ((table.get? key).getD []).length < ((table'.get? key).getD []).length := by
  obtain ⟨key, -, rfl⟩ := Option.map_eq_some_iff.mp h
  refine ⟨fun other => ?_, key, by simp⟩
  by_cases heq : other = key
  · subst heq
    simp
  · rw [get?_set_of_ne _ _ heq]

variable (rt docOrderDesc table children stack) in
theorem grows_addChildren : Grows table (addChildren rt docOrderDesc children table stack).1 := by
  induction children generalizing table stack with
  | nil => exact Grows.refl table
  | cons child children ih =>
    rw [addChildren]
    cases hbuild : buildEntry rt docOrderDesc child table with
    | none => exact Grows.refl table
    | some table' =>
      have hgrows := (grows_buildEntry hbuild).1
      simp only
      split
      · exact hgrows.trans (ih _ _)
      · exact hgrows

variable (rt docOrderDesc table children stack) in
/-- The children are all pushed, or one of them cannot be built and hung up. -/
theorem addChildren_stack : (addChildren rt docOrderDesc children table stack).2
    = if children.all fun child => builds rt docOrderDesc child && hasSortKeyText rt child then
        some (children.reverse ++ stack)
      else none := by
  induction children generalizing table stack with
  | nil => rfl
  | cons child children ih =>
    rw [addChildren]
    cases hbuild : buildEntry rt docOrderDesc child table with
    | none => simp [buildEntry_eq_none.mp hbuild]
    | some table' =>
      have hbuilds : builds rt docOrderDesc child = true := by
        rw [← Bool.not_eq_false]
        intro hfalse
        rw [buildEntry_eq_none.mpr hfalse] at hbuild
        cases hbuild
      cases htext : hasSortKeyText rt child with
      | false => simp [htext]
      | true =>
        simp only [if_true, ih, all_cons, hbuilds, htext, Bool.true_and, reverse_cons,
          append_assoc, singleton_append]

theorem restoreStack_leaf (h : JsValue.truthy (childrenOf nodeData) = false) :
    restoreStack rt docOrderDesc table (nodeData :: stack)
      = restoreStack rt docOrderDesc table stack := by
  rw [restoreStack, if_neg (by rw [h]; exact Bool.false_ne_true)]

theorem restoreStack_of_not_iterable (h : JsValue.truthy (childrenOf nodeData) = true)
    (hiterate : iterate (childrenOf nodeData) = none) :
    restoreStack rt docOrderDesc table (nodeData :: stack) = (table, false) := by
  rw [restoreStack, if_pos h]
  split
  · rfl
  · next heq => cases hiterate.symm.trans heq

/-- The children of a node are pushed before what is below them is restored. -/
theorem restoreStack_node (h : JsValue.truthy (childrenOf nodeData) = true)
    (hiterate : iterate (childrenOf nodeData) = some children) :
    restoreStack rt docOrderDesc table (nodeData :: stack)
      = let added := addChildren rt docOrderDesc children table stack
        (added.2.map (restoreStack rt docOrderDesc added.1)).getD (added.1, false) := by
  rw [restoreStack, if_pos h]
  split
  · next heq => cases hiterate.symm.trans heq
  · next heq =>
    obtain rfl := Option.some.inj (hiterate.symm.trans heq)
    split
    · next heq => simp [heq]
    · next heq => simp [heq]

variable (rt docOrderDesc table stack) in
theorem grows_restoreStack : Grows table (restoreStack rt docOrderDesc table stack).1 := by
  induction table, stack using restoreStack.induct rt docOrderDesc with
  | case1 table =>
    rw [restoreStack]
    exact Grows.refl table
  | case2 table nodeData stack htruthy hiterate =>
    rw [restoreStack_of_not_iterable htruthy hiterate]
    exact Grows.refl table
  | case3 table nodeData stack htruthy children hiterate table' hadded =>
    rw [restoreStack_node htruthy hiterate]
    have hgrows := grows_addChildren rt docOrderDesc table children stack
    simp only [hadded] at hgrows ⊢
    exact hgrows
  | case4 table nodeData stack htruthy children hiterate table' stack' hadded ih =>
    rw [restoreStack_node htruthy hiterate]
    have hgrows := grows_addChildren rt docOrderDesc table children stack
    simp only [hadded] at hgrows ⊢
    exact hgrows.trans ih
  | case5 table nodeData stack htruthy ih =>
    rw [restoreStack_leaf (Bool.not_eq_true _ ▸ htruthy)]
    exact ih

variable (rt docOrderDesc table stack) in
/-- **The loop comes to its end just where everything on the stack can be restored.** -/
theorem restoreStack_done : (restoreStack rt docOrderDesc table stack).2 = true
    ↔ ∀ nodeData ∈ stack, Restorable rt docOrderDesc nodeData := by
  induction table, stack using restoreStack.induct rt docOrderDesc with
  | case1 table => simp [restoreStack]
  | case2 table nodeData stack htruthy hiterate =>
    rw [restoreStack_of_not_iterable htruthy hiterate, forall_mem_cons]
    refine iff_of_false (by simp) fun h => ?_
    rcases h.1 with hleaf | ⟨-, hsome, -, -⟩
    · exact nomatch hleaf.symm.trans htruthy
    · exact nomatch hiterate.symm.trans hsome
  | case3 table nodeData stack htruthy children hiterate table' hadded =>
    rw [restoreStack_node htruthy hiterate, forall_mem_cons]
    have hstack := addChildren_stack rt docOrderDesc table children stack
    rw [hadded] at hstack
    simp only [hadded]
    refine iff_of_false (by simp) fun h => ?_
    rcases h.1 with hleaf | ⟨-, hsome, hbuilds, -⟩
    · exact nomatch hleaf.symm.trans htruthy
    · obtain rfl := Option.some.inj (hiterate.symm.trans hsome)
      rw [if_pos (all_eq_true.mpr hbuilds)] at hstack
      exact nomatch hstack
  | case4 table nodeData stack htruthy children hiterate table' stack' hadded ih =>
    rw [restoreStack_node htruthy hiterate, forall_mem_cons]
    have hstack := addChildren_stack rt docOrderDesc table children stack
    rw [hadded] at hstack
    simp only [hadded, Option.map_some, Option.getD_some]
    rw [ih]
    split at hstack
    · next hall =>
      rw [Option.some.inj hstack, forall_mem_append]
      refine and_congr_left fun _ => ⟨fun h => ?_, fun h => ?_⟩
      · exact .node htruthy hiterate (all_eq_true.mp hall) fun child hchild =>
          h child (mem_reverse.mpr hchild)
      · rcases h with hleaf | ⟨-, hsome, -, hchildren⟩
        · exact nomatch hleaf.symm.trans htruthy
        · obtain rfl := Option.some.inj (hiterate.symm.trans hsome)
          exact fun child hchild => hchildren child (mem_reverse.mp hchild)
    · exact nomatch hstack
  | case5 table nodeData stack htruthy ih =>
    have hleaf := Bool.not_eq_true _ ▸ htruthy
    rw [restoreStack_leaf hleaf, forall_mem_cons, ih]
    exact (and_iff_right (.leaf hleaf)).symm

end Table

/-! ## The restoration -/

/-- The tree, the look-up table and the providers of a view are what they were. -/
structure Unchanged (view view' : CachedView) : Prop where
  rootEntry : view'.rootEntry = view.rootEntry
  entriesByDocId : view'.entriesByDocId = view.entriesByDocId
  providers : SameProviders view.providers view'.providers

/-- **A snapshot that is restored as a whole, or of which nothing is applied**: it moves no provider,
and then a state throws, or there is no tree, or not even its root can be built. -/
def WholeOrNothing (rt : CacheRuntime) (view : CachedView) (snapshot : Json) : Prop :=
  let states := providerStates snapshot
  let tree := snapshotField snapshot "tree"
  let rootBuilds := builds rt (view.docOrderDesc snapshot) (tree.getD .null)
  ((∀ e ∈ states, throwsOn view.providers e = false) ∧ JsValue.truthy tree = true ∧ rootBuilds = true
      ∧ Restorable rt (view.docOrderDesc snapshot) (tree.getD .null))
    ∨ ((∀ e ∈ handledStates view.providers states, ∀ p, view.providers.get? e.1 = some p →
        LeavesAlone p e.2)
      ∧ ((∃ e ∈ states, throwsOn view.providers e = true) ∨ JsValue.truthy tree = false
        ∨ rootBuilds = false))

section Failure

variable {view : CachedView} {snapshot : Json}

theorem nodup_providerStates {text : JSString} (h : rt.jsonParse text = some snapshot) :
    ((providerStates snapshot).map Prod.fst).Nodup := by
  rw [providerStates]
  split
  · next htruthy =>
    cases hget : JsValue.get (some snapshot) "providerStates" with
    | none =>
      rw [snapshotField, hget] at htruthy
      exact absurd htruthy (by simp [JsValue.truthy])
    | some states =>
      cases states with
      | none =>
        rw [snapshotField, hget] at htruthy
        exact absurd htruthy (by simp [JsValue.truthy])
      | some states =>
        rw [snapshotField, hget]
        exact rt.distinct _ _ _ _ h hget
  · exact nodup_nil

/-- What the tree of a snapshot does: it is restored, or the table stays as it is just where the root
cannot be built. -/
theorem restoreTree_spec (rt : CacheRuntime) (view : CachedView) (snapshot : Json) :
    let tree := snapshotField snapshot "tree"
    let rootBuilds := builds rt (view.docOrderDesc snapshot) (tree.getD .null)
    let restored := restoreTree rt view snapshot
    (restored.2 = true ↔ JsValue.truthy tree = true ∧ rootBuilds = true
        ∧ Restorable rt (view.docOrderDesc snapshot) (tree.getD .null))
      ∧ restored.1.providers = view.providers
      ∧ (restored.2 = false → restored.1.rootEntry = view.rootEntry
        ∧ (restored.1.entriesByDocId = view.entriesByDocId
          ↔ JsValue.truthy tree = false ∨ rootBuilds = false)) := by
  intro tree rootBuilds restored
  cases htruthy : JsValue.truthy tree with
  | false =>
    have hrestored : restored = (view, false) := by
      change restoreTree rt view snapshot = _
      rw [restoreTree]
      exact if_neg (by rw [htruthy]; exact Bool.false_ne_true)
    simp [hrestored]
  | true =>
    have hunfold : restored = _ := restoreTree_of_truthy (rfl : _ = tree) htruthy
    cases hbuild : buildEntry rt (view.docOrderDesc snapshot) (tree.getD .null)
        view.entriesByDocId with
    | none =>
      have hbuilds : rootBuilds = false := buildEntry_eq_none.mp hbuild
      rw [hbuild] at hunfold
      simp [hunfold, hbuilds]
    | some table =>
      have hbuilds : rootBuilds = true := by
        rw [← Bool.not_eq_false]
        intro hfalse
        rw [buildEntry_eq_none.mpr hfalse] at hbuild
        cases hbuild
      have hdone := restoreStack_done rt (view.docOrderDesc snapshot) table [tree.getD .null]
      rw [forall_mem_singleton] at hdone
      have hgrows := grows_restoreStack rt (view.docOrderDesc snapshot) table [tree.getD .null]
      obtain ⟨-, key, hlonger⟩ := grows_buildEntry hbuild
      rw [hbuild] at hunfold
      simp only at hunfold
      rw [hunfold, hbuilds, ← hdone]
      cases hstack : (restoreStack rt (view.docOrderDesc snapshot) table [tree.getD .null]).2 with
      | true => simp
      | false =>
        refine ⟨by simp, by simp, fun _ => ⟨by simp, ?_⟩⟩
        simp only [Bool.false_eq_true, if_false, reduceCtorEq, or_self, iff_false]
        intro heq
        have hkey := hgrows key
        rw [heq] at hkey
        exact absurd hlonger (not_lt.mpr hkey)

theorem restoreFromTreeSnapshot_unchanged_iff
    (hnodup : ((providerStates snapshot).map Prod.fst).Nodup) :
    ((restoreFromTreeSnapshot rt view snapshot).2 = false →
        Unchanged view (restoreFromTreeSnapshot rt view snapshot).1)
      ↔ WholeOrNothing rt view snapshot := by
  have hdone := importProviderStates_done view.providers hnodup
  have hsame := sameProviders_importProviderStates_iff view.providers hnodup
  have hunfold : restoreFromTreeSnapshot rt view snapshot
      = if (importProviderStates (providerStates snapshot) view.providers).2 then
          restoreTree rt { view.restoreSettings snapshot with
            providers := (importProviderStates (providerStates snapshot) view.providers).1 } snapshot
        else ({ view.restoreSettings snapshot with
          providers := (importProviderStates (providerStates snapshot) view.providers).1 },
            false) := rfl
  cases himported : (importProviderStates (providerStates snapshot) view.providers).2 with
  | false =>
    -- a state throws
    rw [himported, if_neg Bool.false_ne_true] at hunfold
    have hthrows : ∃ e ∈ providerStates snapshot, throwsOn view.providers e = true := by
      by_contra hnone
      push Not at hnone
      rw [himported] at hdone
      exact nomatch hdone.mpr fun e he => by simpa using hnone e he
    have hnot : ¬∀ e ∈ providerStates snapshot, throwsOn view.providers e = false := by
      obtain ⟨e, he, hthrow⟩ := hthrows
      exact fun h => nomatch (h e he).symm.trans hthrow
    rw [hunfold, WholeOrNothing, ← hsame]
    constructor
    · exact fun h => .inr ⟨(h rfl).providers, .inl hthrows⟩
    · rintro (h | h) -
      · exact absurd h.1 hnot
      · exact ⟨rfl, rfl, h.1⟩
  | true =>
    rw [himported, if_pos rfl] at hunfold
    obtain ⟨htrue, hproviders, hfalse⟩ := restoreTree_spec rt
      { view.restoreSettings snapshot with
        providers := (importProviderStates (providerStates snapshot) view.providers).1 } snapshot
    rw [← hunfold] at htrue hproviders hfalse
    have hall := hdone.mp himported
    have hnone : ¬∃ e ∈ providerStates snapshot, throwsOn view.providers e = true := by
      rintro ⟨e, he, hthrow⟩
      exact nomatch (hall e he).symm.trans hthrow
    rw [WholeOrNothing, ← hsame]
    constructor
    · intro h
      cases hdone' : (restoreFromTreeSnapshot rt view snapshot).2 with
      | true => exact .inl ⟨hall, htrue.mp hdone'⟩
      | false =>
        have hunchanged := h hdone'
        refine .inr ⟨?_, .inr ((hfalse hdone').2.mp hunchanged.entriesByDocId)⟩
        have hp := hunchanged.providers
        rwa [hproviders] at hp
    · rintro (⟨-, h⟩ | ⟨hp, h⟩) hdone'
      · exact nomatch (htrue.mpr h).symm.trans hdone'
      · obtain ⟨hroot, htable⟩ := hfalse hdone'
        refine ⟨hroot, htable.mpr (h.resolve_left hnone), ?_⟩
        rw [hproviders]
        exact hp

end Failure

/-- **A failed restoration leaves the tree, the look-up table and the providers as they are, just
where the bytes are no snapshot of version 2 or one of which all or nothing is applied.** -/
theorem restoreFromCache_unchanged_iff (rt : CacheRuntime) (view : CachedView) (bytes : List ℕ) :
    ((restoreFromCache rt view bytes).2 = false →
        Unchanged view (restoreFromCache rt view bytes).1)
      ↔ ∀ snapshot, rt.jsonParse (Utf8.decode bytes) = some snapshot →
        JsValue.get (some snapshot) "version" = some (some (.number (some 2))) →
          WholeOrNothing rt view snapshot := by
  have hsame : Unchanged view view := ⟨rfl, rfl, SameProviders.refl _⟩
  cases hparse : rt.jsonParse (Utf8.decode bytes) with
  | none =>
    rw [restoreFromCache, hparse]
    exact iff_of_true (fun _ => hsame) fun _ h => absurd h (by simp)
  | some snapshot =>
    have hall : (∀ s, some snapshot = some s →
        JsValue.get (some s) "version" = some (some (.number (some 2))) → WholeOrNothing rt view s)
        ↔ (JsValue.get (some snapshot) "version" = some (some (.number (some 2))) →
          WholeOrNothing rt view snapshot) :=
      ⟨fun h => h snapshot rfl, fun h s hs => Option.some.inj hs ▸ h⟩
    rw [hall, restoreFromCache, hparse]
    simp only
    split
    · next hversion =>
      rw [restoreFromTreeSnapshot_unchanged_iff (nodup_providerStates hparse)]
      exact ⟨fun h _ => h, fun h => h hversion⟩
    · next hversion => exact iff_of_true (fun _ => hsame) fun h => absurd h hversion

/-! ### A snapshot without a tree -/

def treelessText : JSString :=
  "\x7b\"version\":2,\"providerStates\":\x7b\"o\":\x7b\"cursor\":\"c\",\"knownDocIds\":[\"x\"]\x7d\x7d\x7d"

def treelessStates : Json :=
  .object [("o", .object [("cursor", .string "c"), ("knownDocIds", .array [.string "x"])])]

def treelessSnapshot : Json :=
  .object [("version", .number (some 2)), ("providerStates", treelessStates)]

def treelessRuntime : CacheRuntime where
  jsonParse text := if text = treelessText then some treelessSnapshot else none
  numberText _ := ""
  distinct text v name w hparse hget := by
    split at hparse
    · obtain rfl := Option.some.inj hparse
      rw [treelessSnapshot, JsValue.get, Option.some.injEq, lookup_cons] at hget
      split at hget
      · obtain rfl := Option.some.inj hget
        exact nodup_nil
      · rw [lookup_cons] at hget
        split at hget
        · obtain rfl := Option.some.inj hget
          exact nodup_singleton _
        · exact nomatch hget
    · exact nomatch hparse

/-- A view with one provider, which has seen nothing yet. -/
def unreadView : CachedView where
  docOrderDescending := [false]
  categoryIdCounter := .number (some 4)
  categorizationStyle := .string "document_then_category"
  rootEntry := .built ∅
  entriesByDocId := ∅
  providers := (∅ : LinkedMap JSString CachedProvider).set "o" ⟨.documents, .null, []⟩

/-- **The restoration fails and has moved the provider**, whose next update leaves out what is
before the cursor. -/
theorem restoreFromCache_treeless_moves :
    ¬((restoreFromCache treelessRuntime unreadView (treelessText.units.map Fin.val)).2 = false →
      Unchanged unreadView
        (restoreFromCache treelessRuntime unreadView (treelessText.units.map Fin.val)).1) := by
  have hdecode : Utf8.decode (treelessText.units.map Fin.val) = treelessText := by decide +kernel
  have hparse : treelessRuntime.jsonParse (Utf8.decode (treelessText.units.map Fin.val))
      = some treelessSnapshot := by
    rw [hdecode, treelessRuntime]
    simp only [if_true]
  have hrestore : restoreFromCache treelessRuntime unreadView (treelessText.units.map Fin.val)
      = restoreFromTreeSnapshot treelessRuntime unreadView treelessSnapshot := by
    rw [restoreFromCache, hparse]
    rfl
  rw [hrestore]
  intro h
  obtain ⟨p, hp, hcursor, -⟩ := (h rfl).providers "o" ⟨.documents, .null, []⟩ rfl
  have hmoved : (restoreFromTreeSnapshot treelessRuntime unreadView treelessSnapshot).1.providers.get?
      "o" = some ⟨.documents, .string "c", [.string "x"]⟩ := rfl
  obtain rfl := Option.some.inj (hmoved.symm.trans hp)
  exact absurd hcursor (by simp)

end MindooDB
