import MindooDB.Changefeed.CoalescedSync

/-!
# Changefeed/CoalescedRuns — every caller of `syncStoreChanges` is served

As long as no listener calls at the start of a run, one run is active at a time, a caller's promise
settles with a run that was started after the call (`coalesced_run`), and the work that is left,
failed runs included, ends with all callers settled.
-/

namespace MindooDB.CoalescedSync

open Database List Option

variable {db db' : Database} {event : Event} {before : ℕ} {awaited : Awaited} {outcome : Outcome}

/-! ## Nobody is left behind -/

/-- A job that is not a call or a change from outside. -/
def Event.IsWork : Event → Prop
  | .noteChange | .changeTimer | .call | .listenerCall => False
  | _ => True

/-- There is nothing left to do. -/
def Quiet (db : Database) : Prop := ∀ event : Event, event.IsWork → step db event = db

theorem Job.step_eq (hjob : Job db event db') : step db event = db' := by
  cases hjob with
  | noteChange hstarting => rw [step, if_pos hstarting]
  | changeTimer hstarting hholds => rw [step, if_pos ⟨hstarting, hholds⟩]
  | call hstarting => rw [step, if_pos hstarting]
  | launch hstarting => rw [step, hstarting]
  | finish hstarting hrun => rw [step, if_pos ⟨hstarting, hrun⟩]
  | clear hstarting hrun | settleRun hstarting hrun => rw [step, hstarting, hrun]
  | resume hstarting hwait hrun =>
    rw [step, hstarting, hwait]
    exact if_pos (by rw [outcomeOf_run.mpr hrun]; rfl)
  | settleFollowUp hstarting hfollow houtcome =>
    rw [step, hstarting, hfollow]
    dsimp only
    rw [houtcome]
  | settleCall hstarting hcall hnone houtcome =>
    rw [step, hstarting, hcall]
    dsimp only
    rw [hnone, houtcome]

theorem Quiet.job (hquiet : Quiet db) (hjob : Job db event db') (hwork : event.IsWork) :
    db' = db :=
  hjob.step_eq.symm.trans (hquiet event hwork)

theorem Quiet.starting (hquiet : Quiet db) (h : Orderly db) : db.starting = [] := by
  rcases h.starting with hnil | ⟨run, told, hrun, -, hnone⟩
  · exact hnil
  · have hlaunch := congrArg syncStoreChangesInFlight (hquiet.job (.launch hrun) trivial)
    rw [hnone] at hlaunch
    cases hlaunch

theorem Quiet.settled_run (hquiet : Quiet db) (h : Orderly db) {run : ℕ}
    (hrun : run < db.runs.length) : ∃ outcome, db.runs[run]? = some (.settled outcome) := by
  have hstarting := hquiet.starting h
  obtain ⟨phase, hphase⟩ : ∃ phase, db.runs[run]? = some phase :=
    ⟨_, getElem?_eq_getElem hrun⟩
  -- a job of this run would change its phase
  have hstays {db' : Database} {phase' : RunPhase} (heq : db' = db)
      (hruns : db'.runs = db.runs.set run phase') : phase' = phase := by
    rw [heq] at hruns
    rw [hruns, getElem?_set_self hrun] at hphase
    exact some.inj hphase
  cases phase with
  | announcing told =>
    have hmem := h.announcing run told hphase
    rw [hstarting] at hmem
    cases hmem
  | active =>
    have hjob : Job db (.finish run .fulfilled) (db.finish run .fulfilled) :=
      .finish hstarting hphase
    cases hstays (hquiet.job hjob trivial) rfl
  | finished outcome => cases hstays (hquiet.job (.clear hstarting hphase) trivial) rfl
  | cleared outcome => cases hstays (hquiet.job (.settleRun hstarting hphase) trivial) rfl
  | settled outcome => exact ⟨outcome, hphase⟩

/-- By induction on the follow-ups after one: each waits for a run or a later follow-up. -/
theorem Quiet.settled_followUp (hquiet : Quiet db) (h : Orderly db) {index : ℕ}
    (hindex : index < db.followUps.length) :
    ∃ outcome, db.followUps[index]? = some (.settled outcome) := by
  have hstarting := hquiet.starting h
  induction hn : db.followUps.length - index using Nat.strong_induction_on generalizing index with
  | _ n ih =>
    obtain ⟨phase, hphase⟩ : ∃ phase, db.followUps[index]? = some phase :=
      ⟨_, getElem?_eq_getElem hindex⟩
    have hstays {awaited : Awaited} {outcome : Outcome} (heq : phase = .following awaited)
        (houtcome : db.outcomeOf awaited = some outcome) : False := by
      subst heq
      have hsame := congrArg (·.followUps[index]?)
        (hquiet.job (.settleFollowUp hstarting hphase houtcome) trivial)
      dsimp only [settleFollowUp] at hsame
      rw [hphase, getElem?_set_self hindex] at hsame
      cases hsame
    cases phase with
    | waiting run =>
      obtain ⟨outcome, hrun⟩ := hquiet.settled_run h (h.waiting index run hphase)
      obtain ⟨awaited, hfollow, -⟩ := covered_resume hindex
      rw [hquiet.job (.resume hstarting hphase hrun) trivial, hphase] at hfollow
      cases hfollow
    | following awaited =>
      cases awaited with
      | run run =>
        obtain ⟨outcome, hrun⟩ := hquiet.settled_run h (h.followingRun index run hphase)
        exact (hstays rfl (outcomeOf_run.mpr hrun)).elim
      | followUp later =>
        obtain ⟨hlater, hlength⟩ := h.followingFollowUp index later hphase
        obtain ⟨outcome, hsettled⟩ := ih (db.followUps.length - later) (by omega) hlength rfl
        exact (hstays rfl (outcomeOf_followUp.mpr hsettled)).elim
    | settled outcome => exact ⟨outcome, hphase⟩

theorem Covered.settled_of_quiet (hcovered : Covered db before awaited) (hquiet : Quiet db)
    (h : Orderly db) : ∃ outcome, db.outcomeOf awaited = some outcome := by
  cases hcovered with
  | run _ hrun =>
    obtain ⟨outcome, hrun⟩ := hquiet.settled_run h hrun
    exact ⟨outcome, outcomeOf_run.mpr hrun⟩
  | waiting hphase _ | following hphase _ | settled hphase _ _ =>
    obtain ⟨outcome, hsettled⟩ := hquiet.settled_followUp h (List.getElem?_eq_some_iff.mp hphase).1
    exact ⟨outcome, outcomeOf_followUp.mpr hsettled⟩

/-- **When nothing is left to do**, every call has settled. -/
theorem Quiet.settled_call (hquiet : Quiet db) (h : Orderly db) (hcovered : AllCovered db)
    {call : Call} (hcall : call ∈ db.calls) : call.outcome.isSome := by
  obtain ⟨outcome, houtcome⟩ := (hcovered call hcall).1.settled_of_quiet hquiet h
  by_contra hnone
  rw [Bool.not_eq_true, isSome_eq_false_iff, isNone_iff_eq_none] at hnone
  obtain ⟨index, hindex, hget⟩ := getElem_of_mem hcall
  have hphase : db.calls[index]? = some call := by rw [getElem?_eq_getElem hindex, hget]
  have hsame := congrArg (·.calls[index]?)
    (hquiet.job (.settleCall (hquiet.starting h) hphase hnone houtcome) trivial)
  dsimp only [settleCall] at hsame
  rw [hphase, getElem?_set_self hindex, Option.some.injEq] at hsame
  rw [← hsame] at hnone
  cases hnone

/-! ## The work that is left -/

/-- The jobs that a run has left. -/
def RunPhase.debt : RunPhase → ℕ
  | .announcing _ => 4
  | .active => 3
  | .finished _ => 2
  | .cleared _ => 1
  | .settled _ => 0

/-- The jobs that a follow-up has left, its run included. -/
def FollowUp.debt : FollowUp → ℕ
  | .waiting _ => 6
  | .following _ => 1
  | .settled _ => 0

def Call.debt (call : Call) : ℕ := if call.outcome = none then 1 else 0

/-- A follow-up that waits for a run other than the one in flight has to wait for that one too. -/
def Database.overdue (db : Database) : ℕ :=
  match db.syncStoreChangesQueued.bind (db.followUps[·]?) with
  | some (.waiting run) =>
    if db.starting = [] ∧
        (db.syncStoreChangesInFlight = none ∨ db.syncStoreChangesInFlight = some run) then 0
    else 7
  | _ => 0

def Database.debt (db : Database) : ℕ :=
  (db.runs.map RunPhase.debt).sum + (db.followUps.map FollowUp.debt).sum
    + (db.calls.map Call.debt).sum + db.overdue

theorem sum_map_set {α : Type} (f : α → ℕ) {l : List α} {i : ℕ} {a : α} (b : α)
    (h : l[i]? = some a) : ((l.set i b).map f).sum + f a = (l.map f).sum + f b := by
  induction l generalizing i with
  | nil => cases h
  | cons x l ih =>
    cases i with
    | zero =>
      cases h
      simp only [set_cons_zero, map_cons, sum_cons]
      omega
    | succ i =>
      have hrest := ih h
      simp only [set_cons_succ, map_cons, sum_cons]
      omega

/-- A job of one run. -/
theorem debt_of_run {run : ℕ} {phase phase' : RunPhase} (hrun : db.runs[run]? = some phase)
    (hlt : phase'.debt < phase.debt) (hruns : db'.runs = db.runs.set run phase')
    (hfollowUps : db'.followUps = db.followUps) (hcalls : db'.calls = db.calls)
    (hoverdue : db'.overdue ≤ db.overdue) : db'.debt < db.debt := by
  have hsum := sum_map_set RunPhase.debt phase' hrun
  rw [Database.debt, Database.debt, hruns, hfollowUps, hcalls]
  omega

theorem overdue_le : db.overdue ≤ 7 := by
  rw [overdue]
  split
  · split
    · exact Nat.zero_le 7
    · exact le_rfl
  · exact Nat.zero_le 7

/-- What is overdue while a run is being started stays so at most. -/
theorem overdue_launch {run : ℕ} {rest : List ℕ} (hstarting : db.starting = run :: rest) :
    (db.launch run rest).overdue ≤ db.overdue := by
  rw [overdue.eq_1 db]
  split
  · rename_i hwait
    rw [if_neg (fun h => by rw [hstarting] at h; cases h.1)]
    exact overdue_le
  · rename_i hnone
    rw [overdue]
    split
    · rename_i run' hwait
      exact absurd hwait (hnone run')
    · exact le_rfl

theorem overdue_clear {run : ℕ} (hstarting : db.starting = []) :
    (db.clear run outcome).overdue = 0 := by
  rw [overdue]
  split
  · exact if_pos ⟨hstarting, .inl rfl⟩
  · rfl

theorem debt_resume {index run : ℕ} (h : Orderly db) (hstarting : db.starting = [])
    (hwait : db.followUps[index]? = some (.waiting run))
    (hrun : db.runs[run]? = some (.settled outcome)) : (db.resume index).debt < db.debt := by
  have hqueued := (h.queued index).mpr ⟨run, hwait⟩
  cases hinFlight : db.syncStoreChangesInFlight with
  | none =>
    -- the follow-up starts its run
    have hsum := sum_map_set FollowUp.debt (.following (.run db.runs.length)) hwait
    have hresume : db.resume index = { db with
        syncStoreChangesQueued := none
        runs := db.runs ++ [.announcing (db.changeNotificationHolds = 0
          && db.pendingChangeNotifications)]
        pendingChangeNotifications := db.pendingChangeNotifications
          && !(db.changeNotificationHolds = 0 && db.pendingChangeNotifications)
        starting := db.runs.length :: db.starting
        followUps := db.followUps.set index (.following (.run db.runs.length)) } := by
      simp only [resume, syncStoreChanges, hinFlight]
    rw [hresume]
    simp only [Database.debt, overdue, map_append, sum_append, map_cons,
      map_nil, sum_cons, sum_nil, bind_none, RunPhase.debt, FollowUp.debt]
      at hsum ⊢
    omega
  | some busy =>
    -- a run was started before it: the next follow-up waits for that one
    have hne : busy ≠ run := by
      rintro rfl
      rcases (h.inFlight busy).mp hinFlight with hactive | ⟨outcome', hfinished⟩
      · cases hrun.symm.trans hactive
      · cases hrun.symm.trans hfinished
    have hlt : index < db.followUps.length := (List.getElem?_eq_some_iff.mp hwait).1
    have hwait' : (db.followUps ++ [FollowUp.waiting busy])[index]? = some (.waiting run) :=
      (getElem?_append_left hlt).trans hwait
    have hsum := sum_map_set FollowUp.debt (.following (.followUp db.followUps.length)) hwait'
    have hresume : db.resume index = { db with
        syncStoreChangesQueued := some db.followUps.length
        followUps := (db.followUps ++ [FollowUp.waiting busy]).set index
          (.following (.followUp db.followUps.length)) } := by
      simp only [resume, syncStoreChanges, hinFlight]
    have hbefore : db.overdue = 7 := by
      rw [overdue, hqueued, bind_some, hwait]
      refine if_neg fun hall => ?_
      rw [hinFlight] at hall
      rcases hall.2 with hnone | hsame
      · cases hnone
      · exact hne (some.inj hsame)
    have hafter : (db.resume index).overdue = 0 := by
      have hnew : ((db.followUps ++ [FollowUp.waiting busy]).set index
          (.following (.followUp db.followUps.length)))[db.followUps.length]?
            = some (.waiting busy) := by
        rw [getElem?_set_ne hlt.ne, getElem?_concat_length]
      rw [hresume, overdue, bind_some, hnew]
      exact if_pos ⟨hstarting, .inr hinFlight⟩
    rw [Database.debt, Database.debt, hbefore, hafter, hresume]
    simp only [map_append, sum_append, map_cons, map_nil, sum_cons,
      sum_nil, FollowUp.debt] at hsum ⊢
    omega

/-- **Every job leaves less to do.** -/
theorem debt_job (h : Orderly db) (hjob : Job db event db') (hwork : event.IsWork) :
    db'.debt < db.debt := by
  cases hjob with
  | noteChange | changeTimer | call => exact hwork.elim
  | @launch run rest hstarting =>
    rcases h.starting with hnil | ⟨run', told, hrun, hphase, -⟩
    · rw [hnil] at hstarting
      cases hstarting
    · rw [hrun] at hstarting
      cases hstarting
      exact debt_of_run hphase (by simp [RunPhase.debt]) rfl rfl rfl (overdue_launch hrun)
  | finish hstarting hrun | settleRun hstarting hrun =>
    exact debt_of_run hrun (by simp [RunPhase.debt]) rfl rfl rfl (le_of_eq rfl)
  | clear hstarting hrun =>
    exact debt_of_run hrun (by simp [RunPhase.debt]) rfl rfl rfl
      ((overdue_clear hstarting).trans_le (Nat.zero_le _))
  | resume hstarting hwait hrun => exact debt_resume h hstarting hwait hrun
  | @settleFollowUp index awaited outcome hstarting hfollow houtcome =>
    have hsum := sum_map_set FollowUp.debt (.settled outcome) hfollow
    have hoverdue : (db.settleFollowUp index outcome).overdue ≤ db.overdue := by
      cases hqueued : db.syncStoreChangesQueued with
      | none => simp [overdue, settleFollowUp, hqueued]
      | some other =>
        obtain ⟨run, hwait⟩ := (h.queued other).mp hqueued
        have hother :
            (db.followUps.set index (.settled outcome))[other]? = some (.waiting run) := by
          grind
        simp [overdue, settleFollowUp, hqueued, hwait, hother]
    have hdebt : (db.settleFollowUp index outcome).debt = (db.runs.map RunPhase.debt).sum
        + ((db.followUps.set index (.settled outcome)).map FollowUp.debt).sum
        + (db.calls.map Call.debt).sum + (db.settleFollowUp index outcome).overdue := rfl
    rw [hdebt, Database.debt]
    simp only [FollowUp.debt] at hsum
    omega
  | @settleCall index call outcome hstarting hcall hnone houtcome =>
    have hsum := sum_map_set Call.debt { call with outcome := some outcome } hcall
    have hdebt : (db.settleCall index call outcome).debt = (db.runs.map RunPhase.debt).sum
        + (db.followUps.map FollowUp.debt).sum
        + ((db.calls.set index { call with outcome := some outcome }).map Call.debt).sum
        + db.overdue := rfl
    rw [hdebt, Database.debt]
    simp only [Call.debt, hnone, reduceCtorEq, if_true, if_false] at hsum
    omega

/-! ## Runs of the system -/

/-- **Coalesced calls are served**: one run is active at a time, a caller's promise settles with a
run that was started after the call, and the work that is left ends with all of them settled. -/
structure Coalesced (db : Database) : Prop where
  single : ∀ run run' : ℕ, db.runs[run]? = some .active → db.runs[run']? = some .active → run = run'
  covered : ∀ call ∈ db.calls, ∀ outcome, call.outcome = some outcome →
    SettledSince db call.runsBefore outcome
  settles : Quiet db → ∀ call ∈ db.calls, call.outcome.isSome
  bounded : ∀ work : List Event, (∀ event ∈ work, event.IsWork) →
    Run.AllSteps step (fun db event => step db event ≠ db) db work → work.length ≤ db.debt

/-- Between two jobs. -/
structure Served (db : Database) : Prop where
  orderly : Orderly db
  covered : AllCovered db

theorem Served.step (h : Served db) (hcall : NoListenerCall db event) :
    Served (step db event) := by
  rcases step_cases hcall with hsame | hjob
  · rwa [hsame]
  · exact ⟨h.orderly.job hjob, h.covered.job h.orderly hjob⟩

theorem Event.IsWork.noListenerCall (hwork : event.IsWork) : NoListenerCall db event := by
  rintro rfl
  exact hwork.elim

/-- **The work that is left ends.** -/
theorem Served.length_le_debt (h : Served db) {work : List Event}
    (hwork : ∀ event ∈ work, event.IsWork)
    (hall : Run.AllSteps CoalescedSync.step (fun db event => CoalescedSync.step db event ≠ db) db
      work) :
    work.length ≤ db.debt := by
  induction work generalizing db with
  | nil => exact Nat.zero_le _
  | cons event work ih =>
    have hevent := hwork event mem_cons_self
    have hlt : (CoalescedSync.step db event).debt < db.debt :=
      debt_job h.orderly ((step_cases hevent.noListenerCall).resolve_left hall.1) hevent
    have hrest := ih (h.step hevent.noListenerCall)
      (fun event hmem => hwork event (mem_cons_of_mem _ hmem)) hall.2
    rw [length_cons]
    omega

theorem Served.coalesced (h : Served db) : Coalesced db where
  single run run' hrun hrun' :=
    some.inj (((h.orderly.inFlight run).mpr (.inl hrun)).symm.trans
      ((h.orderly.inFlight run').mpr (.inl hrun')))
  covered call hcall := (h.covered call hcall).2
  settles hquiet _ hcall := hquiet.settled_call h.orderly h.covered hcall
  bounded _ hwork hall := h.length_le_debt hwork hall

/-- **Coalesced calls are served** in every state of every run in which no listener calls at the
start of a run. -/
theorem coalesced_run {events : List Event}
    (h : Run.AllSteps step NoListenerCall {} events) : Coalesced (Run.run step {} events) := by
  have hstart : Served {} := ⟨orderly_start, nofun⟩
  exact (Run.induction hstart (fun _ _ hserved hcall => hserved.step hcall) h).coalesced

/-- A local change is pending, and the listener that is told of it at the start of a run calls. -/
theorem not_coalesced_listenerCall :
    ¬Coalesced (Run.run step {} [.noteChange, .call, .listenerCall, .launch, .launch]) := fun h =>
  absurd (h.single 0 1 (by decide) (by decide)) (by decide)

/-- A call comes while a run is active, and one between its end and the start of the follow-up. -/
theorem coalesced_lateCall :
    Coalesced (Run.run step {} [.call, .launch, .call, .finish 0 .rejected, .clear 0, .call,
      .launch, .settleRun 0, .resume 0, .call, .finish 1 .fulfilled, .clear 1, .settleRun 1,
      .resume 1]) :=
  coalesced_run (by decide)

end MindooDB.CoalescedSync
