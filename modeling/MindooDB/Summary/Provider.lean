import MindooDB.Lib.Run
import MindooDB.Summary.Kept
import MindooDB.View.Contents

/-!
# Summary/Provider — a view that the summary backs

`core/indexing/summary/SummaryVirtualViewDataProvider.ts`, without a text clause.  An update of the
provider feeds the view with the entries above its watermark and takes out what has left the summary.
The watermark takes an entry for unchanged when its sequence number is, so the view is as a new one
would be as long as no entry is extracted anew below it (`documentsAt_update`).
-/

namespace MindooDB

open DocumentSummaryStore LinkedMap LinkedSet Run SummaryWorld VirtualViewDataChange

/-! ## The provider -/

/-- A column of a view, with the expression that it shows. -/
structure SummaryViewColumn extends VirtualViewColumn where
  expression : Option MindooDBAppExpression := none

/-- A view with what its provider is made of. -/
structure SummaryView where
  columns : List SummaryViewColumn
  categorizationStyle : CategorizationStyle
  isAccepted : JSString → JSString → ColumnValues → Bool
  origin : JSString
  filter : Option MindooDBAppExpression := none
  env : ExpressionRuntime

/-- The state of a provider; `-1` is below every sequence number. -/
structure SummaryVirtualViewDataProvider where
  appliedChangeSeq : ℤ := -1
  knownDocIds : LinkedSet JSString := ∅

namespace SummaryView

variable (v : SummaryView)

def view : VirtualView where
  columns := v.columns.map (·.toVirtualViewColumn)
  categorizationStyle := v.categorizationStyle
  isAccepted := v.isAccepted
  env := v.env.toRuntime

/-- What a column shows, beside the columns before it. -/
def columnValue (column : SummaryViewColumn) (i : ℕ) (context : ExpressionEvaluationContext) :
    Evaluated :=
  match column.expression with
  | some expression => evaluateExpression v.env expression [i] context
  | none =>
    ⟨getSummaryFieldValue context.doc column.name, some (.doc (column.name.split '.'))⟩

/-- The values of the columns from the `i`-th on, behind those before them. -/
def columnValuesFrom :
    List SummaryViewColumn → ℕ → ExpressionEvaluationContext → List (JSString × Evaluated)
  | [], _, context => context.values
  | column :: columns, i, context =>
    columnValuesFrom columns (i + 1)
      { context with
        values := setList column.name (v.columnValue column i context) context.values }

def computeColumnValues (context : ExpressionEvaluationContext) : ColumnValues :=
  ofList ((v.columnValuesFrom v.columns 0 context).map fun e => (e.1, e.2.value))

/-- What an entry is evaluated against. -/
def context (entry : DocumentSummaryEntry) : ExpressionEvaluationContext where
  doc := buildSummaryEvaluationDoc entry.fields entry.lastModified
  origin := v.origin
  lastModifiedAt := some (v.env.toISOString (truncate entry.lastModified))
  decryptionKeyId := some entry.decryptionKeyId

def passesFilter (entry : DocumentSummaryEntry) : Bool :=
  v.filter.all fun filter =>
    expressionToBoolean v.env (evaluateExpression v.env filter [] (v.context entry)).value

/-- **What the view is to show of an entry**, if anything. -/
def entryData (entry : DocumentSummaryEntry) : Option EntryData :=
  if v.passesFilter entry then
    some ⟨v.computeColumnValues (v.context entry), some entry.decryptionKeyId⟩
  else none

/-- One entry of the summary; those at or below the watermark are taken for unchanged. -/
def feedEntry (applied : ℤ) (fed : SummaryVirtualViewDataProvider × VirtualViewDataChange)
    (entry : DocumentSummaryEntry) : SummaryVirtualViewDataProvider × VirtualViewDataChange :=
  if entry.changeSeq ≤ applied then fed
  else
    let provider := { fed.1 with appliedChangeSeq := max fed.1.appliedChangeSeq entry.changeSeq }
    match v.entryData entry with
    | some data =>
      ({ provider with knownDocIds := provider.knownDocIds.add entry.docId },
        fed.2.addEntry entry.docId data)
    | none =>
      if entry.docId ∈ provider.knownDocIds then
        ({ provider with knownDocIds := provider.knownDocIds.delete entry.docId },
          fed.2.removeEntry entry.docId)
      else (provider, fed.2)

/-- A document that is in the summary no more. -/
def dropEntry (fed : SummaryVirtualViewDataProvider × VirtualViewDataChange) (docId : JSString) :
    SummaryVirtualViewDataProvider × VirtualViewDataChange :=
  ({ fed.1 with knownDocIds := fed.1.knownDocIds.delete docId }, fed.2.removeEntry docId)

/-- What an update makes of the provider, and the batch it has for the view. -/
def computeChange (provider : SummaryVirtualViewDataProvider) (entries : List DocumentSummaryEntry) :
    SummaryVirtualViewDataProvider × VirtualViewDataChange :=
  let fed := entries.foldl (v.feedEntry provider.appliedChangeSeq) (provider, { origin := v.origin })
  (fed.1.knownDocIds.toList.filter fun docId => docId ∉ entries.map (·.docId)).foldl dropEntry fed

end SummaryView

/-! ### What a batch provides -/

namespace VirtualViewDataChange

variable {change : VirtualViewDataChange} {provided : JSString → Option EntryData}

theorem provide_addEntry (docId : JSString) (data : EntryData) :
    (change.addEntry docId data).provide provided
      = Function.update (change.provide provided) docId (some data) := by
  funext other
  rw [provide, addEntry]
  by_cases heq : other = docId
  · subst heq
    simp only [get?_set_self, Function.update_self]
  · simp only [get?_set_of_ne _ _ heq, Function.update_of_ne heq]
    rfl

theorem provide_removeEntry {docId : JSString} (h : change.additions.get? docId = none) :
    (change.removeEntry docId).provide provided
      = Function.update (change.provide provided) docId none := by
  funext other
  rw [provide, removeEntry]
  by_cases heq : other = docId
  · subst heq
    simp [h]
  · rw [Function.update_of_ne heq, provide]
    simp [heq]

/-- A batch without changes provides nothing. -/
theorem provide_of_not_hasChanges (h : change.hasChanges = false) :
    change.provide provided = provided := by
  obtain ⟨hremovals, hadditions⟩ := Bool.or_eq_false_iff.mp h
  have hnone : ∀ docId, change.additions.get? docId = none := by
    intro docId
    have hnil : change.additions.toList = [] :=
      List.length_eq_zero_iff.mp (by simpa [LinkedMap.size] using hadditions)
    rw [get?, hnil]
    rfl
  funext docId
  have hempty : change.removals = ∅ := size_eq_zero_iff.mp (by simpa using hremovals)
  rw [provide, hnone, hempty]
  exact if_neg (notMem_empty docId)

end VirtualViewDataChange

namespace SummaryView

variable {v : SummaryView} {provided : JSString → Option EntryData} {applied : ℤ}
  {fed : SummaryVirtualViewDataProvider × VirtualViewDataChange} {entry : DocumentSummaryEntry}

/-- The provider knows the documents that its batch leaves in the view. -/
def Knows (provided : JSString → Option EntryData)
    (fed : SummaryVirtualViewDataProvider × VirtualViewDataChange) : Prop :=
  ∀ docId, docId ∈ fed.1.knownDocIds ↔ (fed.2.provide provided docId).isSome

variable (v applied) in
/-- **What one entry changes.** -/
theorem feedEntry_spec (hknows : Knows provided fed)
    (hfresh : fed.2.additions.get? entry.docId = none) :
    Knows provided (v.feedEntry applied fed entry)
      ∧ (v.feedEntry applied fed entry).2.provide provided
        = (if entry.changeSeq ≤ applied then fed.2.provide provided
          else Function.update (fed.2.provide provided) entry.docId (v.entryData entry))
      ∧ (v.feedEntry applied fed entry).2.origin = fed.2.origin
      ∧ ∀ docId, docId ≠ entry.docId →
        (v.feedEntry applied fed entry).2.additions.get? docId = fed.2.additions.get? docId := by
  rw [feedEntry]
  split
  · exact ⟨hknows, rfl, rfl, fun _ _ => rfl⟩
  · cases hdata : v.entryData entry with
    | some data =>
      refine ⟨fun docId => ?_, provide_addEntry _ _, rfl, fun docId hne =>
        get?_set_of_ne _ _ hne⟩
      rw [provide_addEntry, mem_add, hknows docId]
      by_cases heq : docId = entry.docId
      · subst heq
        simp
      · simp [heq]
    | none =>
      dsimp only
      split
      · refine ⟨fun docId => ?_, provide_removeEntry hfresh, rfl, fun _ _ => rfl⟩
        rw [provide_removeEntry hfresh, mem_delete, hknows docId]
        by_cases heq : docId = entry.docId
        · subst heq
          simp
        · simp [heq]
      · rename_i hunknown
        refine ⟨hknows, ?_, rfl, fun _ _ => rfl⟩
        rw [hknows, Option.not_isSome_iff_eq_none] at hunknown
        rw [← hunknown, Function.update_eq_self]

variable (v applied) in
/-- **What all entries change.** -/
theorem foldl_feedEntry_spec {entries : List DocumentSummaryEntry} (hknows : Knows provided fed)
    (hnodup : (entries.map (·.docId)).Nodup)
    (hfresh : ∀ entry ∈ entries, fed.2.additions.get? entry.docId = none) :
    Knows provided (entries.foldl (v.feedEntry applied) fed)
      ∧ (∀ entry ∈ entries, (entries.foldl (v.feedEntry applied) fed).2.provide provided entry.docId
        = if entry.changeSeq ≤ applied then fed.2.provide provided entry.docId
          else v.entryData entry)
      ∧ (entries.foldl (v.feedEntry applied) fed).2.origin = fed.2.origin
      ∧ ∀ docId, docId ∉ entries.map (·.docId) →
        (entries.foldl (v.feedEntry applied) fed).2.provide provided docId
            = fed.2.provide provided docId
          ∧ (entries.foldl (v.feedEntry applied) fed).2.additions.get? docId
            = fed.2.additions.get? docId := by
  induction entries generalizing fed with
  | nil => exact ⟨hknows, nofun, rfl, fun _ _ => ⟨rfl, rfl⟩⟩
  | cons entry entries ih =>
    obtain ⟨hnot, hnodup⟩ := List.nodup_cons.mp hnodup
    obtain ⟨hknows', hprovide, horigin, hothers⟩ :=
      feedEntry_spec v applied hknows (hfresh entry List.mem_cons_self)
    have hne : ∀ other ∈ entries, other.docId ≠ entry.docId := fun other hother heq =>
      hnot (List.mem_map.mpr ⟨other, hother, heq⟩)
    obtain ⟨hknows'', hall, horigin', hrest⟩ := ih hknows' hnodup fun other hother =>
      (hothers _ (hne other hother)).trans (hfresh other (List.mem_cons_of_mem _ hother))
    have hstep : ∀ docId, docId ≠ entry.docId →
        (v.feedEntry applied fed entry).2.provide provided docId = fed.2.provide provided docId := by
      intro docId hdocId
      rw [hprovide]
      split
      · rfl
      · exact Function.update_of_ne hdocId _ _
    refine ⟨hknows'', fun other hother => ?_, horigin'.trans horigin, fun docId hdocId => ?_⟩
    · rcases List.mem_cons.mp hother with rfl | hmem
      · rw [List.foldl_cons, (hrest _ hnot).1, hprovide]
        split
        · rfl
        · exact Function.update_self _ _ _
      · rw [List.foldl_cons, hall other hmem, hstep _ (hne other hmem)]
    · rw [List.map_cons, List.mem_cons, not_or] at hdocId
      obtain ⟨hsame, hadditions⟩ := hrest docId hdocId.2
      exact ⟨hsame.trans (hstep docId hdocId.1), hadditions.trans (hothers docId hdocId.1)⟩

/-- **What the sweep changes.** -/
theorem foldl_dropEntry_spec {gone : List JSString} (hknows : Knows provided fed)
    (hfresh : ∀ docId ∈ gone, fed.2.additions.get? docId = none) :
    Knows provided (gone.foldl dropEntry fed)
      ∧ (∀ docId, (gone.foldl dropEntry fed).2.provide provided docId
        = if docId ∈ gone then none else fed.2.provide provided docId)
      ∧ (gone.foldl dropEntry fed).2.origin = fed.2.origin := by
  induction gone generalizing fed with
  | nil => exact ⟨hknows, fun _ => (if_neg List.not_mem_nil).symm, rfl⟩
  | cons first gone ih =>
    have hprovide : (fed.2.removeEntry first).provide provided
        = Function.update (fed.2.provide provided) first none :=
      provide_removeEntry (hfresh first List.mem_cons_self)
    have hknows' : Knows provided (dropEntry fed first) := by
      intro docId
      rw [dropEntry, hprovide, mem_delete, hknows docId]
      by_cases heq : docId = first
      · subst heq
        simp
      · simp [heq]
    obtain ⟨hknows'', hall, horigin⟩ := ih hknows' fun docId hdocId =>
      hfresh docId (List.mem_cons_of_mem _ hdocId)
    refine ⟨hknows'', fun docId => ?_, horigin⟩
    rw [List.foldl_cons, hall, dropEntry, hprovide]
    by_cases heq : docId = first
    · subst heq
      simp
    · simp [heq]

theorem appliedChangeSeq_foldl_dropEntry (gone : List JSString) :
    (gone.foldl dropEntry fed).1.appliedChangeSeq = fed.1.appliedChangeSeq := by
  induction gone generalizing fed with
  | nil => rfl
  | cons first gone ih => exact ih

/-- **An update of the provider provides what the entries ask for**, when those at or below the
watermark have what they ask for. -/
theorem computeChange_spec {provider : SummaryVirtualViewDataProvider}
    {entries : List DocumentSummaryEntry} (hnodup : (entries.map (·.docId)).Nodup)
    (hknown : ∀ docId, docId ∈ provider.knownDocIds ↔ (provided docId).isSome)
    (hcurrent : ∀ entry ∈ entries, entry.changeSeq ≤ provider.appliedChangeSeq →
      provided entry.docId = v.entryData entry) :
    Knows provided (v.computeChange provider entries)
      ∧ (v.computeChange provider entries).2.origin = v.origin
      ∧ (∀ entry ∈ entries, (v.computeChange provider entries).2.provide provided entry.docId
        = v.entryData entry)
      ∧ ∀ docId, docId ∉ entries.map (·.docId) →
        (v.computeChange provider entries).2.provide provided docId = none := by
  have hstart : ∀ docId, (provide { origin := v.origin } provided) docId
      = provided docId := fun docId => by
    rw [provide_of_not_hasChanges rfl]
  have hknows : Knows provided (provider, ({ origin := v.origin } : VirtualViewDataChange)) :=
    fun docId => by rw [hstart]; exact hknown docId
  obtain ⟨hfed, hentries, horigin, hothers⟩ :=
    foldl_feedEntry_spec v provider.appliedChangeSeq hknows hnodup fun _ _ => rfl
  have hgone : ∀ docId, docId ∈ (entries.foldl (v.feedEntry provider.appliedChangeSeq)
      (provider, { origin := v.origin })).1.knownDocIds.toList.filter
        (fun docId => docId ∉ entries.map (·.docId)) ↔
      docId ∈ (entries.foldl (v.feedEntry provider.appliedChangeSeq)
        (provider, { origin := v.origin })).1.knownDocIds ∧ docId ∉ entries.map (·.docId) :=
    fun docId => by rw [List.mem_filter, decide_eq_true_eq, mem_def]
  obtain ⟨hswept, hsweep, horigin'⟩ := foldl_dropEntry_spec hfed fun docId hdocId =>
    (hothers docId ((hgone docId).mp hdocId).2).2
  refine ⟨hswept, horigin'.trans horigin, fun entry hentry => ?_, fun docId hdocId => ?_⟩
  · have hpresent := List.mem_map_of_mem (f := fun e : DocumentSummaryEntry => e.docId) hentry
    rw [computeChange, hsweep, if_neg fun hmem => ((hgone _).mp hmem).2 hpresent, hentries entry hentry]
    split
    · rename_i hle
      exact (hstart _).trans (hcurrent entry hentry hle)
    · rfl
  · rw [computeChange, hsweep]
    split
    · rfl
    · rename_i hkept
      refine Option.not_isSome_iff_eq_none.mp fun hsome => hkept ?_
      exact (hgone docId).mpr ⟨(hfed docId).mpr hsome, hdocId⟩

end SummaryView

/-! ## The entries of the summary -/

variable {entries : LinkedMap JSString DocumentSummaryEntry}

namespace DocumentSummaryStore

variable {env : ExpressionRuntime} {store : DocumentSummaryStore}

theorem get?_applyDocument {item : Item} {docId : JSString} {entry : DocumentSummaryEntry}
    (hget : (store.applyDocument env item).entries.get? docId = some entry) :
    store.entries.get? docId = some entry ∨
      docId = item.docId ∧ docId ≠ DB_SETUP_DOC_ID ∧ item.doc.isDeleted = false
        ∧ entry = item.entry env store.config := by
  by_cases heq : docId = item.docId
  · subst heq
    by_cases hsetup : item.docId = DB_SETUP_DOC_ID
    · obtain ⟨-, -, -, hnone⟩ := store.applyDocument_setup env hsetup
      exact nomatch hnone.symm.trans hget
    · cases hdeleted : item.doc.isDeleted with
      | true =>
        obtain ⟨-, hnone⟩ := store.applyDocument_deleted env hsetup hdeleted
        exact nomatch hnone.symm.trans hget
      | false =>
        obtain ⟨-, hentry⟩ := store.applyDocument_live env hsetup hdeleted
        exact .inr ⟨rfl, hsetup, rfl, Option.some.inj (hget.symm.trans hentry)⟩
  · obtain ⟨store', hstore, htouched, -⟩ := store.applyDocument_spec env item
    rw [htouched.others docId heq, hstore.entries] at hget
    exact .inl hget

theorem keyed_foldl_putEntry {l : List DocumentSummaryEntry} (h : Keyed entries) :
    Keyed (l.foldl putEntry entries) := by
  induction l generalizing entries with
  | nil => exact h
  | cons entry l ih =>
    refine ih fun {docId other} hget => ?_
    rw [putEntry, get?_set] at hget
    split at hget
    · rename_i heq
      rw [heq, Option.some.inj hget]
    · exact h hget

end DocumentSummaryStore

namespace SummaryWorld

variable {env : ExpressionRuntime} {w : SummaryWorld} {docId : JSString}
  {entry : DocumentSummaryEntry}

theorem entries_advanceFlush : w.advanceFlush.store.entries = w.store.entries
    ∧ w.advanceFlush.store.restored = w.store.restored := by
  cases hflush : w.flush with
  | idle =>
    rw [advanceFlush, hflush]
    exact ⟨rfl, rfl⟩
  | writing byBucket position =>
    rw [store_advanceFlush hflush]
    exact ⟨rfl, rfl⟩
  | clearing =>
    rw [advanceFlush, hflush]
    exact ⟨rfl, rfl⟩

theorem entries_startFlush : w.startFlush.store.entries = w.store.entries
    ∧ w.startFlush.store.restored = w.store.restored := by
  rw [startFlush]
  split
  · split
    · exact entries_advanceFlush
    · exact ⟨rfl, rfl⟩
  · exact ⟨rfl, rfl⟩

/-- What has been restored stays so in its process. -/
theorem restored_of_step {event : SummaryEvent} (hevent : ∀ config, event ≠ .restart config)
    (hrestored : w.store.restored = true) : (w.step env event).store.restored = true := by
  cases event with
  | write other doc purged =>
    cases purged with
    | false => exact hrestored
    | true =>
      exact (touched_removeDocument w.store other).1.restored.trans hrestored
  | hide other =>
    exact (touched_removeDocument w.store other).1.restored.trans hrestored
  | setConfig config =>
    exact (reconfigured_setConfig w.store config).restored.trans hrestored
  | configLoaded =>
    change w.configLoaded.store.restored = true
    rw [configLoaded]
    split
    · exact (reconfigured_seedConfig w.store w.feed).restored.trans hrestored
    · exact hrestored
  | startUpdate =>
    change w.startUpdate.store.restored = true
    rw [startUpdate]
    split <;> exact hrestored
  | advanceUpdate =>
    change (w.advanceUpdate env).store.restored = true
    rw [advanceUpdate]
    cases w.update with
    | idle => exact hrestored
    | seeding =>
      exact (reconfigured_seedConfig w.store w.feed).restored.trans hrestored
    | restoring =>
      dsimp only
      split
      · exact hrestored
      · rfl
    | restoringBuckets payload => exact restore_frame.2.2.1
    | ready => exact hrestored
    | iterating pass remaining pending =>
      cases pending with
      | some item =>
        have happlied := (restored_applyDocument env w.store item).trans hrestored
        cases remaining <;> cases pass <;> exact happlied
      | none =>
        cases remaining with
        | cons row remaining =>
          change (w.fetch pass row remaining).store.restored = true
          rw [fetch]
          split <;> exact hrestored
        | nil =>
          cases pass with
          | backfill => exact hrestored
          | incremental =>
            change (w.endPass env .incremental).store.restored = true
            rw [endPass]
            split <;> exact hrestored
  | stopUpdate =>
    change w.stopUpdate.store.restored = true
    rw [stopUpdate]
    split <;> exact hrestored
  | startFlush => exact entries_startFlush.2.trans hrestored
  | advanceFlush => exact entries_advanceFlush.2.trans hrestored
  | restart config => exact absurd rfl (hevent config)
  | _ => exact hrestored

/-- Only an update that goes on gives a document an entry. -/
theorem get?_of_step {event : SummaryEvent} (hevent : event ≠ .advanceUpdate)
    (hget : (w.step env event).store.entries.get? docId = some entry) :
    w.store.entries.get? docId = some entry := by
  cases event with
  | write other doc purged =>
    cases purged with
    | false => exact hget
    | true => exact get?_of_purged (.inr rfl) hget
  | hide other => exact get?_of_purged (.inr rfl) hget
  | setConfig config =>
    rwa [← (reconfigured_setConfig w.store config).entries]
  | configLoaded =>
    change w.configLoaded.store.entries.get? docId = _ at hget
    rw [configLoaded] at hget
    split at hget
    · rwa [← (reconfigured_seedConfig w.store w.feed).entries]
    · exact hget
  | startUpdate =>
    change w.startUpdate.store.entries.get? docId = _ at hget
    rw [startUpdate] at hget
    split at hget <;> exact hget
  | advanceUpdate => exact absurd rfl hevent
  | stopUpdate =>
    change w.stopUpdate.store.entries.get? docId = _ at hget
    rw [stopUpdate] at hget
    split at hget <;> exact hget
  | startFlush => rwa [← entries_startFlush.1]
  | advanceFlush => rwa [← entries_advanceFlush.1]
  | restart config => exact absurd hget (by simp [step, restart, DocumentSummaryStore.new])
  | _ => exact hget

/-- **What gives a document an entry**: it is taken from the iteration, or the cache is read. -/
theorem get?_of_advanceUpdate
    (hget : (w.advanceUpdate env).store.entries.get? docId = some entry) :
    w.store.entries.get? docId = some entry ∨
      (∃ item, w.inHand = some item ∧ docId = item.docId ∧ docId ≠ DB_SETUP_DOC_ID
        ∧ item.doc.isDeleted = false ∧ entry = item.entry env w.store.config) ∨
      ∃ payload, w.update = .restoringBuckets payload := by
  rw [advanceUpdate] at hget
  cases hupdate : w.update with
  | idle =>
    rw [hupdate] at hget
    exact .inl hget
  | seeding =>
    rw [hupdate] at hget
    rw [← (reconfigured_seedConfig w.store w.feed).entries]
    exact .inl hget
  | restoring =>
    rw [hupdate] at hget
    dsimp only at hget
    split at hget <;> exact .inl hget
  | restoringBuckets payload => exact .inr (.inr ⟨payload, rfl⟩)
  | ready =>
    rw [hupdate] at hget
    exact .inl hget
  | iterating pass remaining pending =>
    rw [hupdate] at hget
    cases pending with
    | some item =>
      have hstore : (w.store.applyDocument env item).entries.get? docId = some entry := by
        cases remaining <;> cases pass <;> exact hget
      rcases get?_applyDocument hstore with hold | hnew
      · exact .inl hold
      · exact .inr (.inl ⟨item, by rw [inHand, hupdate], hnew⟩)
    | none =>
      refine .inl ?_
      cases remaining with
      | cons row remaining =>
        change (w.fetch pass row remaining).store.entries.get? docId = _ at hget
        rw [fetch] at hget
        split at hget <;> exact hget
      | nil =>
        cases pass with
        | backfill => exact hget
        | incremental =>
          change (w.endPass env .incremental).store.entries.get? docId = _ at hget
          rw [endPass] at hget
          split at hget <;> exact hget

end SummaryWorld

/-! ## The view while its database changes -/

/-- A database with a view that its summary backs. -/
structure SummaryViewWorld where
  summary : SummaryWorld
  provider : SummaryVirtualViewDataProvider := {}
  view : ViewIndex

inductive SummaryViewEvent where
  | summary (event : SummaryEvent)
  /-- What an update of the provider does once the summary is up to date. -/
  | updateView
  /-- A new provider on an empty view. -/
  | openView

namespace SummaryViewWorld

variable (v : SummaryView) (w : SummaryViewWorld)

/-- An empty view with a new provider. -/
def opened (summary : SummaryWorld) : SummaryViewWorld where
  summary := summary
  view := v.view.initial

def updateView : SummaryViewWorld :=
  let (provider, change) := v.computeChange w.provider w.summary.store.entries.values
  { w with
    provider := provider
    view := if change.hasChanges then v.view.applyChanges w.view change else w.view }

/-- The view goes with the process. -/
def step : SummaryViewEvent → SummaryViewWorld
  | .summary (.restart config) => opened v (w.summary.step v.env (.restart config))
  | .summary event => { w with summary := w.summary.step v.env event }
  | .updateView => w.updateView v
  | .openView => opened v w.summary

/-- A new database with a view of it. -/
def new (config : Option SummaryConfig) : SummaryViewWorld :=
  opened v (.new config)

variable {v w}

/-- What the summary asks the view to show. -/
def showing (v : SummaryView) (store : DocumentSummaryStore) (docId : JSString) : Option EntryData :=
  (store.entries.get? docId).bind v.entryData

/-- A new provider on an empty view, brought up to date with the same summary. -/
def rebuilt (v : SummaryView) (w : SummaryViewWorld) : SummaryViewWorld :=
  (opened v w.summary).updateView v

/-! ### The condition -/

/-- An update of the summary leaves the entry that the provider has applied, when it comes to a
document again at or below the watermark. -/
def LeavesApplied (v : SummaryView) (w : SummaryViewWorld) (event : SummaryViewEvent) : Prop :=
  event = .summary .advanceUpdate → ∀ item, w.summary.inHand = some item →
    item.docId ≠ DB_SETUP_DOC_ID → item.doc.isDeleted = false →
      (item.cursor.changeSeq : ℤ) ≤ w.provider.appliedChangeSeq →
        w.summary.store.entries.get? item.docId = some (item.entry v.env w.summary.store.config)

/-! ### The invariant -/

/-- **The view is as the provider takes it to be**, and what is at or below the watermark is shown. -/
structure Current (v : SummaryView) (w : SummaryViewWorld) (provided : JSString → Option EntryData) :
    Prop where
  ordered : w.summary.Ordered
  begun : w.summary.Begun
  keyed : Keyed w.summary.store.entries
  waits : w.summary.store.restored = false → w.provider.appliedChangeSeq = -1
  applied : ∀ {docId entry}, w.summary.store.entries.get? docId = some entry →
    entry.changeSeq ≤ w.provider.appliedChangeSeq → provided docId = v.entryData entry
  known : ∀ docId, docId ∈ w.provider.knownDocIds ↔ (provided docId).isSome
  shows : v.view.Shows v.origin provided w.view

theorem current_opened {summary : SummaryWorld} (hordered : summary.Ordered)
    (hbegun : summary.Begun) (hkeyed : Keyed summary.store.entries) :
    Current v (opened v summary) fun _ => none := by
  refine ⟨hordered, hbegun, hkeyed, fun _ => rfl, fun _ hle => ?_, fun docId => ?_,
    VirtualView.shows_initial v.origin⟩
  · have hneg : ((_ : ℕ) : ℤ) ≤ -1 := hle
    omega
  · exact ⟨fun h => absurd h (notMem_empty docId), nofun⟩

theorem nodup_docIds (h : Keyed entries) :
    (entries.values.map (·.docId)).Nodup := by
  have hkeys : entries.values.map (·.docId) = entries.keys := by
    rw [values, keys, List.map_map]
    exact List.map_congr_left fun e he => h (mem_toList_iff.mp he)
  rw [hkeys]
  exact entries.nodup_keys

theorem view_updateView : (w.updateView v).view
    = if (v.computeChange w.provider w.summary.store.entries.values).2.hasChanges then
        v.view.applyChanges w.view (v.computeChange w.provider w.summary.store.entries.values).2
      else w.view := rfl

/-- **After an update of the provider the view shows what the summary asks for.** -/
theorem Current.updateView {provided : JSString → Option EntryData} (h : Current v w provided)
    (horigin : v.origin ≠ ORIGIN_VIRTUALVIEW) :
    Current v (w.updateView v) (showing v w.summary.store) := by
  have hentries : ∀ entry ∈ w.summary.store.entries.values,
      w.summary.store.entries.get? entry.docId = some entry := by
    intro entry hentry
    obtain ⟨docId, hget⟩ := mem_values_iff.mp hentry
    rw [h.keyed hget]
    exact hget
  obtain ⟨hknows, hsame, hpresent, habsent⟩ := SummaryView.computeChange_spec (v := v)
    (nodup_docIds h.keyed) h.known fun entry hentry => h.applied (hentries entry hentry)
  have hprovide : (v.computeChange w.provider w.summary.store.entries.values).2.provide provided
      = showing v w.summary.store := by
    funext docId
    rw [showing]
    cases hget : w.summary.store.entries.get? docId with
    | some entry =>
      have hentry := mem_values_iff.mpr ⟨docId, hget⟩
      obtain rfl := h.keyed hget
      exact hpresent entry hentry
    | none =>
      refine habsent docId fun hmem => ?_
      obtain ⟨entry, hentry, rfl⟩ := List.mem_map.mp hmem
      exact nomatch (hentries entry hentry).symm.trans hget
  refine ⟨h.ordered, h.begun, h.keyed, fun hrestored => ?_, fun hget _ => ?_, fun docId => ?_, ?_⟩
  · have hempty := (h.begun.unrestored hrestored).entries
    change (v.computeChange w.provider w.summary.store.entries.values).1.appliedChangeSeq = -1
    rw [hempty, SummaryView.computeChange, SummaryView.appliedChangeSeq_foldl_dropEntry]
    exact h.waits hrestored
  · change ((w.summary.store.entries.get? _).bind v.entryData) = _
    rw [show w.summary.store.entries.get? _ = some _ from hget]
    rfl
  · rw [← hprovide]
    exact hknows docId
  · rw [view_updateView]
    split
    · rw [← hprovide]
      have hshows := h.shows
      rw [← hsame] at hshows horigin ⊢
      exact hshows.applyChanges horigin
    · rename_i hchanges
      rw [provide_of_not_hasChanges (Bool.eq_false_iff.mpr hchanges)] at hprovide
      exact hprovide ▸ h.shows

theorem entries_restore {store : DocumentSummaryStore} {payload : SummaryMetaPayload}
    {records : SummaryRecords} : (store.restore payload records).entries
      = (persistedEntries records).foldl putEntry
        store.entries := by
  rw [DocumentSummaryStore.restore]
  split_ifs <;> rfl

/-- **A step of the summary** leaves what is shown as it is asked for. -/
theorem Current.summary {provided : JSString → Option EntryData} (h : Current v w provided)
    {event : SummaryEvent} (hevent : ∀ config, event ≠ .restart config)
    (hleaves : LeavesApplied v w (.summary event)) :
    Current v { w with summary := w.summary.step v.env event } provided := by
  have hwaits : ∀ {payload}, w.summary.update = .restoringBuckets payload →
      w.provider.appliedChangeSeq = -1 := by
    intro payload hupdate
    have hphase := h.begun.phase
    rw [hupdate] at hphase
    exact h.waits hphase
  refine ⟨h.ordered.step event, h.begun.step h.ordered event, fun {docId entry} hget => ?_,
    fun hrestored => ?_, fun {docId entry} hget hle => ?_, h.known, h.shows⟩
  · by_cases hadvance : event = .advanceUpdate
    · subst hadvance
      rcases get?_of_advanceUpdate hget with hold | ⟨item, -, rfl, -, -, rfl⟩ |
        ⟨payload, hupdate⟩
      · exact h.keyed hold
      · rfl
      · change (w.summary.advanceUpdate v.env).store.entries.get? docId = _ at hget
        rw [advanceUpdate, hupdate] at hget
        change (w.summary.store.restore payload w.summary.records).entries.get? docId = _ at hget
        rw [entries_restore] at hget
        exact keyed_foldl_putEntry h.keyed hget
    · exact h.keyed (get?_of_step hadvance hget)
  · refine h.waits (Bool.eq_false_iff.mpr fun htrue => ?_)
    cases (restored_of_step hevent htrue).symm.trans hrestored
  · by_cases hadvance : event = .advanceUpdate
    · subst hadvance
      rcases get?_of_advanceUpdate hget with hold |
        ⟨item, hitem, rfl, hsetup, hlive, rfl⟩ | ⟨payload, hupdate⟩
      · exact h.applied hold hle
      · exact h.applied (hleaves rfl item hitem hsetup hlive hle) hle
      · have hneg := hwaits hupdate
        have hpos : (entry.changeSeq : ℤ) ≤ w.provider.appliedChangeSeq := hle
        omega
    · exact h.applied (get?_of_step hadvance hget) hle

theorem Current.step {provided : JSString → Option EntryData} (h : Current v w provided)
    (horigin : v.origin ≠ ORIGIN_VIRTUALVIEW) {event : SummaryViewEvent}
    (hleaves : LeavesApplied v w event) : ∃ provided', Current v (w.step v event) provided' := by
  cases event with
  | updateView => exact ⟨_, h.updateView horigin⟩
  | openView => exact ⟨_, current_opened h.ordered h.begun h.keyed⟩
  | summary event =>
    by_cases hrestart : ∃ config, event = .restart config
    · obtain ⟨config, rfl⟩ := hrestart
      exact ⟨_, current_opened (h.ordered.step _) (h.begun.step h.ordered _) fun hget =>
        absurd hget (by simp [SummaryWorld.step, SummaryWorld.restart, DocumentSummaryStore.new])⟩
    · have hevent : ∀ config, event ≠ .restart config := fun config heq =>
        hrestart ⟨config, heq⟩
      have hsummary := h.summary hevent hleaves
      cases event with
      | restart config => exact absurd rfl (hevent config)
      | _ => exact ⟨_, hsummary⟩

/-- **A view that is updated step by step is as a new one would be**, in every run in which the
summary leaves what the provider has applied: it has the same documents with the same values, at the
same paths. -/
theorem documentsAt_update (v : SummaryView) (horigin : v.origin ≠ ORIGIN_VIRTUALVIEW)
    (config : Option SummaryConfig) {events : List SummaryViewEvent}
    (hleaves : AllSteps (step v) (LeavesApplied v) (new v config) events) :
    DocumentsAt ((run (step v) (new v config) events).updateView v).view
        ((run (step v) (new v config) events).rebuilt v).view
      ∧ DocumentsAt ((run (step v) (new v config) events).rebuilt v).view
        ((run (step v) (new v config) events).updateView v).view := by
  have hnew : ∃ provided, Current v (new v config) provided :=
    ⟨_, current_opened (ordered_new config) (begun_new config)
      fun hget => absurd hget (by simp [SummaryWorld.new, DocumentSummaryStore.new])⟩
  obtain ⟨provided, hcurrent⟩ := Run.induction (motive := fun w => ∃ provided, Current v w provided)
    hnew (fun w event h hstep => h.elim fun _ h => h.step horigin hstep) hleaves
  have hupdated := (hcurrent.updateView horigin).shows
  have hrebuilt := ((current_opened hcurrent.ordered hcurrent.begun hcurrent.keyed).updateView
    horigin).shows
  exact ⟨hupdated.documentsAt hrebuilt, hrebuilt.documentsAt hupdated⟩

/-! ### A view of one column -/

/-- No document is taken at or below the watermark. -/
def staysBeyond (w : SummaryViewWorld) : SummaryViewEvent → Bool
  | .summary .advanceUpdate =>
    w.summary.inHand.all fun item => w.provider.appliedChangeSeq < (item.cursor.changeSeq : ℤ)
  | _ => true

theorem leavesApplied_of_staysBeyond {event : SummaryViewEvent} (h : w.staysBeyond event = true) :
    LeavesApplied v w event := by
  rintro rfl item hitem - - hle
  rw [staysBeyond, hitem] at h
  exact absurd (of_decide_eq_true h) (not_lt.mpr hle)

/-- The view that shows the text of each document. -/
def textView : SummaryView where
  columns := [⟨⟨"text", false, .NONE, .NONE, nofun⟩, none⟩]
  categorizationStyle := .CATEGORY_THEN_DOCUMENT
  isAccepted _ _ _ := true
  origin := "summary"
  env := plainExpressions

/-- Two documents are shown, then one changes and one goes. -/
def shownRun : List SummaryViewEvent :=
  [.summary (.write "a" (noteOf "first") false), .summary (.write "b" (noteOf "second") false)]
    ++ undisturbed.map .summary ++ [.updateView, .summary (.write "a" (noteOf "third") false),
      .summary (.write "b" { noteOf "second" with isDeleted := true } false)]
    ++ undisturbed.map .summary

theorem documentsAt_shown :
    DocumentsAt ((run (step textView) (new textView none) shownRun).updateView textView).view
        ((run (step textView) (new textView none) shownRun).rebuilt textView).view
      ∧ DocumentsAt ((run (step textView) (new textView none) shownRun).rebuilt textView).view
        ((run (step textView) (new textView none) shownRun).updateView textView).view :=
  documentsAt_update textView (by decide) none
    (AllSteps.mono (fun _ _ h => leavesApplied_of_staysBeyond h)
      (show AllSteps (step textView) (fun w event => w.staysBeyond event = true)
        (new textView none) shownRun by decide +kernel))

/-- A document is shown, then nothing but its id is to be kept. -/
def reconfiguredRun : List SummaryViewEvent :=
  .summary (.write "a" (noteOf "first") false) :: undisturbed.map .summary
    ++ [.updateView, .summary (.setConfig (some { autoInclude := some false }))]
    ++ undisturbed.map .summary

/-- Whether a document of a view shows a text. -/
def showsText (view : ViewIndex) : Bool :=
  view.entries.toList.any fun pe => !pe.2.isCategory && (pe.2.columnValues.get? "text").isSome

theorem showsText_of_documentsAt {s s' : ViewIndex} (h : DocumentsAt s s')
    (hshows : showsText s = true) : showsText s' = true := by
  obtain ⟨⟨p, e⟩, hmem, htext⟩ := List.any_eq_true.mp hshows
  obtain ⟨hdoc, hsome⟩ := Bool.and_eq_true_iff.mp htext
  obtain ⟨e', hget, hdoc', hsame⟩ := h p e (mem_toList_iff.mp hmem) (by simpa using hdoc)
  refine List.any_eq_true.mpr ⟨(p, e'), mem_toList_iff.mpr hget, ?_⟩
  rw [Bool.and_eq_true_iff, hdoc', ← hsame.columnValues]
  exact ⟨rfl, hsome⟩

/-- **A field that a backfill drops** is still shown. -/
theorem not_documentsAt_reconfigured :
    ¬DocumentsAt
      ((run (step textView) (new textView none) reconfiguredRun).updateView textView).view
      ((run (step textView) (new textView none) reconfiguredRun).rebuilt textView).view := by
  intro h
  have hshown := showsText_of_documentsAt h (by decide +kernel)
  exact absurd hshown (by decide +kernel)

end SummaryViewWorld

end MindooDB
