import MindooDB.Lib.Run

/-!
# UserKeys/ReconcileFlight — overlapping calls of `reconcile`

`core/userkeys/UserKeyManager.ts`: a call that finds a run in flight waits for it, and one that
allows self-creation then starts a run of its own, without looking again.  There is one run at a time
exactly as long as such callers resume while nothing is in flight (`exclusive_iff`).
-/

namespace MindooDB.ReconcileFlight

open List

variable {Status Error : Type}

/-! ## The code -/

/-- A run of `reconcileInner`, until the callback of `finally` has its outcome. -/
structure ReconcileRun (Status Error : Type) where
  allowSelfCreate : Bool
  outcome : Option (Except Error Status)

/-- How far a call has come. -/
inductive Progress (Status Error : Type)
  /-- It waits for the run that it found in flight. -/
  | waiting (run : ℕ)
  /-- It waits for its own run. -/
  | running (run : ℕ)
  | returned (outcome : Except Error Status)

/-- A call of `reconcile`, with the number of runs that had been started before it. -/
structure Call (Status Error : Type) where
  allowSelfCreate : Bool
  runsBefore : ℕ
  progress : Progress Status Error

structure UserKeyManager (Status Error : Type) where
  reconcileInFlight : Option ℕ
  runs : List (ReconcileRun Status Error)
  calls : List (Call Status Error)

namespace UserKeyManager

variable (manager : UserKeyManager Status Error)

def isReconciling : Bool := manager.reconcileInFlight.isSome

/-- Start `reconcileInner` and take the latch. -/
def start (allowSelfCreate : Bool) : UserKeyManager Status Error := { manager with
  runs := manager.runs ++ [⟨allowSelfCreate, none⟩]
  reconcileInFlight := some manager.runs.length }

/-- `reconcile` up to its first `await`. -/
def reconcile (allowSelfCreate : Bool) : UserKeyManager Status Error :=
  match manager.reconcileInFlight with
  | some run => { manager with
      calls := manager.calls ++ [⟨allowSelfCreate, manager.runs.length, .waiting run⟩] }
  | none => { manager.start allowSelfCreate with
      calls := manager.calls ++
        [⟨allowSelfCreate, manager.runs.length, .running manager.runs.length⟩] }

/-- A run ends, and the callback of `finally` clears the latch if the run is still its owner. -/
def finish (run : ℕ) (allowSelfCreate : Bool) (outcome : Except Error Status) :
    UserKeyManager Status Error := { manager with
  runs := manager.runs.set run ⟨allowSelfCreate, some outcome⟩
  reconcileInFlight :=
    if manager.reconcileInFlight = some run then none else manager.reconcileInFlight }

def progressTo (index : ℕ) (call : Call Status Error) (progress : Progress Status Error) :
    UserKeyManager Status Error :=
  { manager with calls := manager.calls.set index { call with progress } }

/-- `reconcile` after the run it waited for has settled. -/
def resume (index : ℕ) (call : Call Status Error) (outcome : Except Error Status) :
    UserKeyManager Status Error :=
  match outcome, call.allowSelfCreate with
  | .ok _, true => (manager.start true).progressTo index call (.running manager.runs.length)
  | outcome, _ => manager.progressTo index call (.returned outcome)

end UserKeyManager

/-! ## The interleavings -/

inductive Event (Status Error : Type)
  | call (allowSelfCreate : Bool)
  | finish (run : ℕ) (outcome : Except Error Status)
  | resume (call : ℕ)
  /-- The caller's own run has settled. -/
  | settle (call : ℕ)

/-- **One job**; one whose turn has not come does nothing. -/
def step (manager : UserKeyManager Status Error) : Event Status Error → UserKeyManager Status Error
  | .call allowSelfCreate => manager.reconcile allowSelfCreate
  | .finish run outcome =>
    match manager.runs[run]? with
    | some ⟨allowSelfCreate, none⟩ => manager.finish run allowSelfCreate outcome
    | _ => manager
  | .resume index =>
    match manager.calls[index]? with
    | some ⟨allowSelfCreate, runsBefore, .waiting run⟩ =>
      match manager.runs[run]? with
      | some ⟨_, some outcome⟩ =>
        manager.resume index ⟨allowSelfCreate, runsBefore, .waiting run⟩ outcome
      | _ => manager
    | _ => manager
  | .settle index =>
    match manager.calls[index]? with
    | some ⟨allowSelfCreate, runsBefore, .running run⟩ =>
      match manager.runs[run]? with
      | some ⟨_, some outcome⟩ =>
        manager.progressTo index ⟨allowSelfCreate, runsBefore, .running run⟩ (.returned outcome)
      | _ => manager
    | _ => manager

/-! ## One run at a time -/

variable (manager : UserKeyManager Status Error)

def IsRunning (run : ℕ) : Prop :=
  ∃ allowSelfCreate, manager.runs[run]? = some ⟨allowSelfCreate, none⟩

/-- A run that allows self-creation, not among the first `before`, has returned. -/
def SelfCreatedSince (before : ℕ) : Prop :=
  ∃ run status, before ≤ run ∧ manager.runs[run]? = some ⟨true, some (.ok status)⟩

/-- **One run at a time**: the latch tells whether there is one, and a call that allows
self-creation returns only after a run that allows it, started after the call. -/
structure Exclusive : Prop where
  single : ∀ run run', IsRunning manager run → IsRunning manager run' → run = run'
  isReconciling : manager.isReconciling = true ↔ ∃ run, IsRunning manager run
  selfCreates : ∀ call ∈ manager.calls, call.allowSelfCreate = true →
    ∀ status, call.progress = .returned (.ok status) → SelfCreatedSince manager call.runsBefore

/-- **A caller that will start a run resumes alone.** -/
def ResumesAlone (manager : UserKeyManager Status Error) (event : Event Status Error) : Prop :=
  ∀ index runsBefore run selfCreates status, event = .resume index →
    manager.calls[index]? = some ⟨true, runsBefore, .waiting run⟩ →
    manager.runs[run]? = some ⟨selfCreates, some (.ok status)⟩ → manager.reconcileInFlight = none

/-- What holds of a call. -/
def CallHolds (call : Call Status Error) : Prop :=
  match call.progress with
  | .waiting _ => call.runsBefore ≤ manager.runs.length
  | .running run => call.runsBefore ≤ run ∧
      ∃ outcome, manager.runs[run]? = some ⟨call.allowSelfCreate, outcome⟩
  | .returned (.error _) => True
  | .returned (.ok _) => call.allowSelfCreate = true → SelfCreatedSince manager call.runsBefore

/-- **What holds between two jobs.** -/
structure Orderly : Prop where
  latch : ∀ run, manager.reconcileInFlight = some run ↔ IsRunning manager run
  calls : ∀ call ∈ manager.calls, CallHolds manager call

variable {manager} {manager' : UserKeyManager Status Error} {event : Event Status Error}

theorem Orderly.exclusive (h : Orderly manager) : Exclusive manager where
  single run run' hrun hrun' :=
    Option.some.inj (((h.latch run).mpr hrun).symm.trans ((h.latch run').mpr hrun'))
  isReconciling := by
    rw [UserKeyManager.isReconciling, Option.isSome_iff_exists]
    exact exists_congr h.latch
  selfCreates call hcall hallow status hreturned := by
    have hholds := h.calls call hcall
    rw [CallHolds, hreturned] at hholds
    exact hholds hallow

/-! ## The calls -/

/-- **Runs go on**: none is lost, and an outcome stays. -/
structure RunsGoOn (manager manager' : UserKeyManager Status Error) : Prop where
  length : manager.runs.length ≤ manager'.runs.length
  run : ∀ (run : ℕ) allowSelfCreate outcome,
    manager.runs[run]? = some ⟨allowSelfCreate, outcome⟩ →
    ∃ outcome', manager'.runs[run]? = some ⟨allowSelfCreate, outcome'⟩ ∧
      (outcome.isSome → outcome' = outcome)

theorem CallHolds.goOn {call : Call Status Error} (hruns : RunsGoOn manager manager')
    (h : CallHolds manager call) : CallHolds manager' call := by
  obtain ⟨allowSelfCreate, runsBefore, progress⟩ := call
  cases progress with
  | waiting run => exact le_trans h hruns.length
  | running run =>
    obtain ⟨hbefore, outcome, hrun⟩ := h
    obtain ⟨outcome', hrun', -⟩ := hruns.run run _ _ hrun
    exact ⟨hbefore, outcome', hrun'⟩
  | returned outcome =>
    cases outcome with
    | error e => trivial
    | ok status =>
      intro hallow
      obtain ⟨run, status', hbefore, hrun⟩ := h hallow
      obtain ⟨outcome', hrun', hsame⟩ := hruns.run run _ _ hrun
      exact ⟨run, status', hbefore, hsame rfl ▸ hrun'⟩

theorem runsGoOn_start (allowSelfCreate : Bool) :
    RunsGoOn manager (manager.start allowSelfCreate) where
  length := length_append ▸ Nat.le_add_right _ _
  run _ _ outcome hrun :=
    ⟨outcome, (getElem?_append_left (List.getElem?_eq_some_iff.mp hrun).1).trans hrun, fun _ => rfl⟩

theorem runsGoOn_finish {run : ℕ} {allowSelfCreate : Bool}
    (hrun : manager.runs[run]? = some ⟨allowSelfCreate, none⟩) (outcome : Except Error Status) :
    RunsGoOn manager (manager.finish run allowSelfCreate outcome) where
  length := length_set.ge
  run run' allow outcome' hrun' := by
    by_cases heq : run' = run
    · subst heq
      cases hrun.symm.trans hrun'
      exact ⟨some outcome, getElem?_set_self (List.getElem?_eq_some_iff.mp hrun).1, nofun⟩
    · exact ⟨outcome', (getElem?_set_ne (Ne.symm heq)).trans hrun', fun _ => rfl⟩

/-- A call goes on. -/
theorem callsHold_progressTo {index : ℕ} {call : Call Status Error}
    {progress : Progress Status Error} (h : ∀ call ∈ manager.calls, CallHolds manager call)
    (hnew : CallHolds manager { call with progress }) :
    ∀ call' ∈ (manager.progressTo index call progress).calls,
      CallHolds (manager.progressTo index call progress) call' := by
  intro call' hcall'
  rcases mem_or_eq_of_mem_set hcall' with hmem | rfl
  · exact h call' hmem
  · exact hnew

/-- **The calls stay as they should**, whoever resumes when. -/
theorem callsHold_step (h : ∀ call ∈ manager.calls, CallHolds manager call)
    (event : Event Status Error) :
    ∀ call ∈ (step manager event).calls, CallHolds (step manager event) call := by
  have hstart (allowSelfCreate : Bool) :
      (manager.start allowSelfCreate).runs[manager.runs.length]? = some ⟨allowSelfCreate, none⟩ :=
    getElem?_concat_length
  cases event with
  | call allowSelfCreate =>
    rw [step, UserKeyManager.reconcile]
    intro call hcall
    split at hcall
    · rcases mem_append.mp hcall with hmem | hmem
      · exact h call hmem
      · cases mem_singleton.mp hmem
        exact le_rfl (a := manager.runs.length)
    · rcases mem_append.mp hcall with hmem | hmem
      · have hgo : RunsGoOn manager (manager.start allowSelfCreate) := runsGoOn_start allowSelfCreate
        exact (h call hmem).goOn ⟨hgo.length, hgo.run⟩
      · cases mem_singleton.mp hmem
        exact ⟨le_rfl, none, hstart allowSelfCreate⟩
  | finish run outcome =>
    rw [step]
    split
    · rename_i hrun
      exact fun call hcall => (h call hcall).goOn (runsGoOn_finish hrun outcome)
    · exact h
  | resume index =>
    rw [step]
    split
    · rename_i allowSelfCreate runsBefore run hcall
      have hbefore : runsBefore ≤ manager.runs.length := h _ (mem_of_getElem? hcall)
      split
      · rename_i selfCreates outcome hrun
        cases outcome with
        | error e => exact callsHold_progressTo h trivial
        | ok status =>
          cases allowSelfCreate with
          | false => exact callsHold_progressTo h nofun
          | true =>
            exact callsHold_progressTo (fun call hmem => (h call hmem).goOn (runsGoOn_start true))
              ⟨hbefore, none, hstart true⟩
      · exact h
    · exact h
  | settle index =>
    rw [step]
    split
    · rename_i allowSelfCreate runsBefore run hcall
      obtain ⟨hbefore, outcome, hown⟩ := h _ (mem_of_getElem? hcall)
      split
      · rename_i selfCreates outcome' hrun
        cases hown.symm.trans hrun
        refine callsHold_progressTo h ?_
        cases outcome' with
        | error e => trivial
        | ok status => exact fun hallow => ⟨run, status, hbefore, hallow ▸ hrun⟩
      · exact h
    · exact h

/-! ## The latch -/

/-- A run that is started while none is in flight is the only one. -/
theorem latch_start (h : ∀ run, manager.reconcileInFlight = some run ↔ IsRunning manager run)
    (hnone : manager.reconcileInFlight = none) (allowSelfCreate : Bool) (run : ℕ) :
    (manager.start allowSelfCreate).reconcileInFlight = some run ↔
      IsRunning (manager.start allowSelfCreate) run := by
  have hidle : ¬IsRunning manager run := by
    rw [← h, hnone]
    nofun
  rw [UserKeyManager.start, Option.some.injEq]
  constructor
  · rintro rfl
    exact ⟨allowSelfCreate, getElem?_concat_length⟩
  · rintro ⟨selfCreates, hrun⟩
    by_contra hne
    refine hidle ⟨selfCreates, ?_⟩
    have hlt := (List.getElem?_eq_some_iff.mp hrun).1
    rw [length_append, length_singleton] at hlt
    exact (getElem?_append_left (by omega)).symm.trans hrun

theorem latch_finish (h : ∀ run, manager.reconcileInFlight = some run ↔ IsRunning manager run)
    {run : ℕ} {allowSelfCreate : Bool}
    (hrun : manager.runs[run]? = some ⟨allowSelfCreate, none⟩) (outcome : Except Error Status)
    (run' : ℕ) : (manager.finish run allowSelfCreate outcome).reconcileInFlight = some run' ↔
      IsRunning (manager.finish run allowSelfCreate outcome) run' := by
  have hlatch : manager.reconcileInFlight = some run := (h run).mpr ⟨_, hrun⟩
  rw [UserKeyManager.finish, if_pos hlatch]
  refine iff_of_false nofun ?_
  rintro ⟨selfCreates, hrun'⟩
  by_cases heq : run' = run
  · subst heq
    rw [getElem?_set_self (List.getElem?_eq_some_iff.mp hrun).1] at hrun'
    cases hrun'
  · rw [getElem?_set_ne (Ne.symm heq)] at hrun'
    exact heq (Option.some.inj (((h run').mpr ⟨_, hrun'⟩).symm.trans hlatch))

/-- **A job keeps the order** if a caller that will start a run resumes alone. -/
theorem Orderly.step (h : Orderly manager) (halone : ResumesAlone manager event) :
    Orderly (step manager event) := by
  refine ⟨?_, callsHold_step h.calls event⟩
  cases event with
  | call allowSelfCreate =>
    rw [ReconcileFlight.step, UserKeyManager.reconcile]
    split
    · exact h.latch
    · exact latch_start h.latch ‹_› allowSelfCreate
  | finish run outcome =>
    rw [ReconcileFlight.step]
    split
    · exact latch_finish h.latch ‹_› outcome
    · exact h.latch
  | resume index =>
    rw [ReconcileFlight.step]
    split
    · rename_i allowSelfCreate runsBefore run hcall
      split
      · rename_i selfCreates outcome hrun
        cases outcome with
        | error e => exact h.latch
        | ok status =>
          cases allowSelfCreate with
          | false => exact h.latch
          | true => exact latch_start h.latch (halone _ _ _ _ _ rfl hcall hrun) true
      · exact h.latch
    · exact h.latch
  | settle index =>
    rw [ReconcileFlight.step]
    split
    · split
      · exact h.latch
      · exact h.latch
    · exact h.latch

/-- Two runs are started where a caller does not resume alone. -/
theorem Orderly.resumesAlone (h : Orderly manager)
    (hexclusive : Exclusive (ReconcileFlight.step manager event)) : ResumesAlone manager event := by
  rintro index runsBefore run selfCreates status rfl hcall hrun
  by_contra hsome
  obtain ⟨busy, hbusy⟩ := Option.ne_none_iff_exists'.mp hsome
  obtain ⟨allowSelfCreate, hget⟩ := (h.latch busy).mp hbusy
  rw [ReconcileFlight.step, hcall] at hexclusive
  dsimp only at hexclusive
  rw [hrun] at hexclusive
  have hlt := (List.getElem?_eq_some_iff.mp hget).1
  refine hlt.ne (hexclusive.single busy manager.runs.length ⟨allowSelfCreate, ?_⟩ ⟨true, ?_⟩)
  · exact (getElem?_append_left hlt).trans hget
  · exact getElem?_concat_length

/-! ## Runs of the system -/

theorem orderly_start : Orderly (⟨none, [], []⟩ : UserKeyManager Status Error) where
  latch run := iff_of_false nofun (by rintro ⟨allowSelfCreate, hrun⟩; cases hrun)
  calls := nofun

theorem orderly_of_run {events : List (Event Status Error)}
    (h : Run.AllSteps step ResumesAlone ⟨none, [], []⟩ events) :
    Orderly (Run.run step ⟨none, [], []⟩ events) :=
  Run.induction orderly_start (fun _ _ horderly halone => horderly.step halone) h

/-- **There is one run at a time in all states** of a run of the system exactly if every caller that
will start a run resumes while nothing is in flight. -/
theorem exclusive_iff (events : List (Event Status Error)) :
    (∀ before, before <+: events → Exclusive (Run.run step ⟨none, [], []⟩ before)) ↔
      Run.AllSteps step ResumesAlone ⟨none, [], []⟩ events := by
  induction events using List.reverseRecOn with
  | nil =>
    refine iff_of_true (fun before hbefore => ?_) trivial
    rw [prefix_nil.mp hbefore]
    exact orderly_start.exclusive
  | append_singleton events event ih =>
    rw [Run.allSteps_append, ← ih]
    constructor
    · intro h
      have hbefore : ∀ before, before <+: events →
          Exclusive (Run.run step ⟨none, [], []⟩ before) :=
        fun before hbefore => h before (hbefore.trans (prefix_append _ _))
      have hlast := h _ prefix_rfl
      rw [Run.run_append] at hlast
      exact ⟨hbefore, (orderly_of_run (ih.mp hbefore)).resumesAlone hlast, trivial⟩
    · rintro ⟨hbefore, halone, -⟩ before hprefix
      rcases prefix_concat_iff.mp hprefix with rfl | hprefix
      · rw [Run.run_append]
        exact ((orderly_of_run (ih.mp hbefore)).step halone).exclusive
      · exact hbefore before hprefix

/-- Two callers that allow self-creation wait for one run, and both start one of their own. -/
theorem not_exclusive_twoWaiters :
    ¬Exclusive (Run.run step (⟨none, [], []⟩ : UserKeyManager Unit Unit)
      [.call false, .call true, .call true, .finish 0 (.ok ()), .resume 1, .resume 2]) := fun h =>
  absurd (h.single 1 2 ⟨true, rfl⟩ ⟨true, rfl⟩) (by decide)

end MindooDB.ReconcileFlight
