import MindooDB.Lib.Run

/-!
# Changefeed/CoalescedSync — overlapping calls of `syncStoreChanges`

`core/BaseMindooDB.ts`: at most one run is in flight and at most one follow-up run is queued behind
it.  The promises that hold them are cleared in jobs of their own, and callers come between any two
jobs.  A run first tells the change listeners of pending local changes, and only then takes the
latch: a listener that syncs starts a second run beside it.
-/

namespace MindooDB.CoalescedSync

open List

/-! ## The code -/

inductive Outcome
  | fulfilled
  | rejected
  deriving DecidableEq

/-- A run of `syncStoreChangesInternal` and what becomes of its promises. -/
inductive RunPhase
  /-- `beginChangeNotificationHold`; are listeners told of pending changes? -/
  | announcing (told : Bool)
  | active
  /-- The promise `run` has settled. -/
  | finished (outcome : Outcome)
  /-- The callback of `finally` has run. -/
  | cleared (outcome : Outcome)
  /-- The promise of `finally` has settled. -/
  | settled (outcome : Outcome)
  deriving DecidableEq

/-- What a caller waits for: a run or a follow-up. -/
inductive Awaited
  | run (index : ℕ)
  | followUp (index : ℕ)
  deriving DecidableEq

/-- The promise `syncStoreChangesQueued`. -/
inductive FollowUp
  /-- It waits for a run to settle. -/
  | waiting (run : ℕ)
  /-- Its callback has called `syncStoreChanges` again. -/
  | following (awaited : Awaited)
  | settled (outcome : Outcome)
  deriving DecidableEq

/-- A call from outside, with the number of runs that had been started before it. -/
structure Call where
  awaits : Awaited
  runsBefore : ℕ
  outcome : Option Outcome := none
  deriving DecidableEq

structure Database where
  syncStoreChangesInFlight : Option ℕ := none
  syncStoreChangesQueued : Option ℕ := none
  changeNotificationHolds : ℕ := 0
  /-- Listeners have local changes to be told of. -/
  pendingChangeNotifications : Bool := false
  runs : List RunPhase := []
  followUps : List FollowUp := []
  calls : List Call := []
  /-- The runs that are being started, the innermost first. -/
  starting : List ℕ := []
  deriving DecidableEq

namespace Database

variable (db : Database)

/-- `syncStoreChanges` up to its first `await`, without the start of a run. -/
def syncStoreChanges : Awaited × Database :=
  match db.syncStoreChangesInFlight with
  | some run =>
    match db.syncStoreChangesQueued with
    | some queued => (.followUp queued, db)
    | none => (.followUp db.followUps.length, { db with
        followUps := db.followUps ++ [.waiting run]
        syncStoreChangesQueued := some db.followUps.length })
  | none =>
    let told := db.changeNotificationHolds = 0 && db.pendingChangeNotifications
    (.run db.runs.length, { db with
      runs := db.runs ++ [.announcing told]
      pendingChangeNotifications := db.pendingChangeNotifications && !told
      starting := db.runs.length :: db.starting })

def call : Database :=
  let called := db.syncStoreChanges
  { called.2 with calls := called.2.calls ++ [⟨called.1, db.runs.length, none⟩] }

/-- The rest of the start of a run. -/
def launch (run : ℕ) (starting : List ℕ) : Database := { db with
  changeNotificationHolds := db.changeNotificationHolds + 1
  runs := db.runs.set run .active
  syncStoreChangesInFlight := some run
  starting }

/-- `syncStoreChangesInternal` returns or throws, and the hold ends. -/
def finish (run : ℕ) (outcome : Outcome) : Database := { db with
  changeNotificationHolds := db.changeNotificationHolds - 1
  pendingChangeNotifications :=
    db.pendingChangeNotifications && db.changeNotificationHolds - 1 ≠ 0
  runs := db.runs.set run (.finished outcome) }

/-- The callback of `finally`. -/
def clear (run : ℕ) (outcome : Outcome) : Database := { db with
  runs := db.runs.set run (.cleared outcome)
  syncStoreChangesInFlight := none }

/-- The run under way ends. -/
def settleRun (run : ℕ) (outcome : Outcome) : Database := { db with
  runs := db.runs.set run (.settled outcome) }

/-- The callback of a follow-up. -/
def resume (followUp : ℕ) : Database :=
  let called := { db with syncStoreChangesQueued := none }.syncStoreChanges
  { called.2 with followUps := called.2.followUps.set followUp (.following called.1) }

/-- The run after it ends. -/
def settleFollowUp (followUp : ℕ) (outcome : Outcome) : Database := { db with
  followUps := db.followUps.set followUp (.settled outcome) }

def settleCall (index : ℕ) (call : Call) (outcome : Outcome) : Database := { db with
  calls := db.calls.set index { call with outcome := some outcome } }

/-- The outcome of a promise that has settled. -/
def outcomeOf : Awaited → Option Outcome
  | .run index =>
    match db.runs[index]? with
    | some (.settled outcome) => some outcome
    | _ => none
  | .followUp index =>
    match db.followUps[index]? with
    | some (.settled outcome) => some outcome
    | _ => none

end Database

@[simp] theorem calls_syncStoreChanges (db : Database) :
    db.syncStoreChanges.2.calls = db.calls := by
  rw [Database.syncStoreChanges]
  split
  · split <;> rfl
  · rfl

variable {run index : ℕ}

theorem outcomeOf_run {db : Database} {outcome : Outcome} :
    db.outcomeOf (.run run) = some outcome ↔ db.runs[run]? = some (.settled outcome) := by
  rw [Database.outcomeOf]
  split
  · rename_i hrun
    rw [hrun, Option.some.injEq, Option.some.injEq, RunPhase.settled.injEq]
  · rename_i hrun
    exact iff_of_false nofun (hrun outcome)

theorem outcomeOf_followUp {db : Database} {outcome : Outcome} :
    db.outcomeOf (.followUp index) = some outcome ↔
      db.followUps[index]? = some (.settled outcome) := by
  rw [Database.outcomeOf]
  split
  · rename_i hrun
    rw [hrun, Option.some.injEq, Option.some.injEq, FollowUp.settled.injEq]
  · rename_i hrun
    exact iff_of_false nofun (hrun outcome)

/-! ## The interleavings -/

inductive Event
  /-- A local change that listeners are to be told of. -/
  | noteChange
  /-- The timer tells them. -/
  | changeTimer
  | call
  /-- A listener that is told at the start of a run calls. -/
  | listenerCall
  | launch
  | finish (run : ℕ) (outcome : Outcome)
  | clear (run : ℕ)
  | settleRun (run : ℕ)
  | resume (followUp : ℕ)
  | settleFollowUp (followUp : ℕ)
  | settleCall (call : ℕ)
  deriving DecidableEq

/-- **One job**: while a run is being started nothing else runs, and jobs whose turn has not come do
nothing. -/
def step (db : Database) : Event → Database
  | .noteChange => if db.starting = [] then { db with pendingChangeNotifications := true } else db
  | .changeTimer =>
    if db.starting = [] ∧ db.changeNotificationHolds = 0 then
      { db with pendingChangeNotifications := false }
    else db
  | .call => if db.starting = [] then db.call else db
  | .listenerCall =>
    match db.starting with
    | [] => db
    | run :: _ => if db.runs[run]? = some (.announcing true) then db.call else db
  | .launch =>
    match db.starting with
    | [] => db
    | run :: starting => db.launch run starting
  | .finish run outcome =>
    if db.starting = [] ∧ db.runs[run]? = some .active then db.finish run outcome else db
  | .clear run =>
    match db.starting, db.runs[run]? with
    | [], some (.finished outcome) => db.clear run outcome
    | _, _ => db
  | .settleRun run =>
    match db.starting, db.runs[run]? with
    | [], some (.cleared outcome) => db.settleRun run outcome
    | _, _ => db
  | .resume followUp =>
    match db.starting, db.followUps[followUp]? with
    | [], some (.waiting run) =>
      if (db.outcomeOf (.run run)).isSome then db.resume followUp else db
    | _, _ => db
  | .settleFollowUp followUp =>
    match db.starting, db.followUps[followUp]? with
    | [], some (.following awaited) =>
      match db.outcomeOf awaited with
      | some outcome => db.settleFollowUp followUp outcome
      | none => db
    | _, _ => db
  | .settleCall index =>
    match db.starting, db.calls[index]? with
    | [], some call =>
      match call.outcome, db.outcomeOf call.awaits with
      | none, some outcome => db.settleCall index call outcome
      | _, _ => db
    | _, _ => db

/-! ## What a run of the system keeps -/

/-- **What holds between two jobs** as long as no listener calls. -/
structure Orderly (db : Database) : Prop where
  starting : db.starting = [] ∨ ∃ run told, db.starting = [run] ∧
    db.runs[run]? = some (.announcing told) ∧ db.syncStoreChangesInFlight = none
  announcing : ∀ (run : ℕ) told, db.runs[run]? = some (.announcing told) → run ∈ db.starting
  /-- The latch holds the run that is busy. -/
  inFlight : ∀ run : ℕ, db.syncStoreChangesInFlight = some run ↔
    db.runs[run]? = some .active ∨ ∃ outcome, db.runs[run]? = some (.finished outcome)
  queued : ∀ index : ℕ, db.syncStoreChangesQueued = some index ↔
    ∃ run, db.followUps[index]? = some (.waiting run)
  waiting : ∀ index run : ℕ, db.followUps[index]? = some (.waiting run) → run < db.runs.length
  followingRun : ∀ index run : ℕ, db.followUps[index]? = some (.following (.run run)) →
    run < db.runs.length
  followingFollowUp : ∀ index later : ℕ,
    db.followUps[index]? = some (.following (.followUp later)) →
    index < later ∧ later < db.followUps.length

theorem orderly_start : Orderly {} := by
  constructor <;> simp

variable {db : Database}

theorem getElem?_concat {α : Type} (l : List α) (a : α) (i : ℕ) :
    (l ++ [a])[i]? = if i = l.length then some a else l[i]? := by
  grind

section

variable (h : Orderly db)

include h

theorem Orderly.lt_of_inFlight (hinFlight : db.syncStoreChangesInFlight = some run) :
    run < db.runs.length := by
  rcases (h.inFlight run).mp hinFlight with hrun | ⟨outcome, hrun⟩
  · exact (List.getElem?_eq_some_iff.mp hrun).1
  · exact (List.getElem?_eq_some_iff.mp hrun).1

section

variable (hstarting : db.starting = [])

include hstarting

theorem Orderly.notAnnouncing (run : ℕ) (told : Bool) :
    db.runs[run]? ≠ some (.announcing told) := by
  intro hrun
  have hmem := h.announcing run told hrun
  rw [hstarting] at hmem
  cases hmem

/-- The start of a run. -/
theorem Orderly.start {db' : Database} {told : Bool} (hnone : db.syncStoreChangesInFlight = none)
    (hruns : db'.runs = db.runs ++ [.announcing told]) (hfollowUps : db'.followUps = db.followUps)
    (hqueued : db'.syncStoreChangesQueued = db.syncStoreChangesQueued)
    (hinFlight : db'.syncStoreChangesInFlight = none)
    (hstarting' : db'.starting = db.runs.length :: db.starting) : Orderly db' where
  starting := by
    refine .inr ⟨db.runs.length, told, by rw [hstarting', hstarting], ?_, hinFlight⟩
    rw [hruns, getElem?_concat_length]
  announcing run told' hrun := by
    rw [hruns, getElem?_concat] at hrun
    rw [hstarting', hstarting]
    split at hrun
    · exact mem_singleton.mpr ‹_›
    · exact absurd hrun (h.notAnnouncing hstarting run told')
  inFlight run := by
    rw [hinFlight, hruns, getElem?_concat]
    refine iff_of_false nofun ?_
    split
    · rintro (heq | ⟨outcome, heq⟩) <;> cases heq
    · rw [← h.inFlight, hnone]
      nofun
  queued := by
    rw [hqueued, hfollowUps]
    exact h.queued
  waiting index run hrun := by
    rw [hruns, length_append]
    exact Nat.lt_add_right _ (h.waiting index run (hfollowUps ▸ hrun))
  followingRun index run hrun := by
    rw [hruns, length_append]
    exact Nat.lt_add_right _ (h.followingRun index run (hfollowUps ▸ hrun))
  followingFollowUp := by
    rw [hfollowUps]
    exact h.followingFollowUp

/-- A new follow-up waits for the run in flight. -/
theorem Orderly.queue {db' : Database} (hinFlight : db.syncStoreChangesInFlight = some run)
    (hnone : db.syncStoreChangesQueued = none) (hruns : db'.runs = db.runs)
    (hfollowUps : db'.followUps = db.followUps ++ [.waiting run])
    (hqueued : db'.syncStoreChangesQueued = some db.followUps.length)
    (hinFlight' : db'.syncStoreChangesInFlight = db.syncStoreChangesInFlight)
    (hstarting' : db'.starting = db.starting) : Orderly db' where
  starting := .inl (hstarting'.trans hstarting)
  announcing run told hrun := absurd (hruns ▸ hrun) (h.notAnnouncing hstarting run told)
  inFlight := by
    rw [hruns, hinFlight']
    exact h.inFlight
  queued index := by
    rw [hqueued, hfollowUps, getElem?_concat]
    split
    · rename_i heq
      exact ⟨fun _ => ⟨run, rfl⟩, fun _ => congrArg some heq.symm⟩
    · rename_i hne
      rw [← h.queued, hnone, Option.some.injEq]
      exact iff_of_false (Ne.symm hne) nofun
  waiting index run' hwait := by
    rw [hfollowUps, getElem?_concat] at hwait
    rw [hruns]
    split at hwait
    · cases hwait
      exact h.lt_of_inFlight hinFlight
    · exact h.waiting index run' hwait
  followingRun index run' hfollow := by
    rw [hfollowUps, getElem?_concat] at hfollow
    rw [hruns]
    split at hfollow
    · cases hfollow
    · exact h.followingRun index run' hfollow
  followingFollowUp index later hfollow := by
    rw [hfollowUps, getElem?_concat] at hfollow
    rw [hfollowUps, length_append]
    split at hfollow
    · cases hfollow
    · obtain ⟨hlater, hlength⟩ := h.followingFollowUp index later hfollow
      exact ⟨hlater, Nat.lt_add_right _ hlength⟩

theorem Orderly.syncStoreChanges :
    Orderly db.syncStoreChanges.2 := by
  unfold Database.syncStoreChanges
  split
  · rename_i run hinFlight
    split
    · exact h
    · rename_i hnone
      exact h.queue hstarting hinFlight hnone rfl rfl rfl rfl rfl
  · rename_i hnone
    exact h.start hstarting hnone rfl rfl rfl hnone rfl

theorem Orderly.call : Orderly db.call := by
  obtain ⟨h₁, h₂, h₃, h₄, h₅, h₆, h₇⟩ := h.syncStoreChanges hstarting
  exact ⟨h₁, h₂, h₃, h₄, h₅, h₆, h₇⟩

end

/-- A job of one run leaves the follow-ups alone. -/
theorem Orderly.of_run {db' : Database} {phase : RunPhase}
    (hruns : db'.runs = db.runs.set run phase) (hfollowUps : db'.followUps = db.followUps)
    (hqueued : db'.syncStoreChangesQueued = db.syncStoreChangesQueued)
    (hstarting : db'.starting = [])
    (hannouncing : ∀ (run : ℕ) told, db'.runs[run]? ≠ some (.announcing told))
    (hinFlight : ∀ run : ℕ, db'.syncStoreChangesInFlight = some run ↔
      db'.runs[run]? = some .active ∨ ∃ outcome, db'.runs[run]? = some (.finished outcome)) :
    Orderly db' where
  starting := .inl hstarting
  announcing run told hrun := absurd hrun (hannouncing run told)
  inFlight := hinFlight
  queued := by
    rw [hqueued, hfollowUps]
    exact h.queued
  waiting := by
    rw [hruns, hfollowUps, length_set]
    exact h.waiting
  followingRun := by
    rw [hruns, hfollowUps, length_set]
    exact h.followingRun
  followingFollowUp := by
    rw [hfollowUps]
    exact h.followingFollowUp

theorem Orderly.launch {starting : List ℕ} (hstarting : db.starting = run :: starting) :
    Orderly (db.launch run starting) := by
  obtain ⟨told, rfl, hphase, hnone⟩ : ∃ told, starting = [] ∧
      db.runs[run]? = some (.announcing told) ∧ db.syncStoreChangesInFlight = none := by
    rcases h.starting with hnil | ⟨run', told, hrun, hphase, hnone⟩
    · cases hnil.symm.trans hstarting
    · cases hrun.symm.trans hstarting
      exact ⟨told, rfl, hphase, hnone⟩
  have hannouncing := h.announcing
  have hinFlight := h.inFlight
  refine h.of_run rfl rfl rfl rfl ?_ ?_
  all_goals
    unfold Database.launch
    grind

section

variable (hstarting : db.starting = [])

include hstarting

theorem Orderly.finish {outcome : Outcome} (hrun : db.runs[run]? = some .active) :
    Orderly (db.finish run outcome) := by
  have hannouncing := h.notAnnouncing hstarting
  have hinFlight := h.inFlight
  refine h.of_run rfl rfl rfl hstarting ?_ ?_
  all_goals
    unfold Database.finish
    grind

theorem Orderly.clear {outcome : Outcome} (hrun : db.runs[run]? = some (.finished outcome)) :
    Orderly (db.clear run outcome) := by
  have hannouncing := h.notAnnouncing hstarting
  have hinFlight := h.inFlight
  refine h.of_run rfl rfl rfl hstarting ?_ ?_
  all_goals
    unfold Database.clear
    grind

theorem Orderly.settleRun {outcome : Outcome} (hrun : db.runs[run]? = some (.cleared outcome)) :
    Orderly (db.settleRun run outcome) := by
  have hannouncing := h.notAnnouncing hstarting
  have hinFlight := h.inFlight
  refine h.of_run rfl rfl rfl hstarting ?_ ?_
  all_goals
    unfold Database.settleRun
    grind

theorem Orderly.settleFollowUp {awaited : Awaited} {outcome : Outcome}
    (hfollow : db.followUps[index]? = some (.following awaited)) :
    Orderly (db.settleFollowUp index outcome) := by
  obtain ⟨-, hannouncing, hinFlight, hqueued, hwaiting, hfollowingRun, hfollowing⟩ := h
  refine ⟨.inl hstarting, hannouncing, hinFlight, ?_, ?_, ?_, ?_⟩
  all_goals
    unfold Database.settleFollowUp
    grind

end

end

theorem getElem?_set_of_lt {α : Type} {l : List α} {i : ℕ} (hi : i < l.length) (b : α) (j : ℕ) :
    (l.set i b)[j]? = if j = i then some b else l[j]? := by
  grind

theorem Orderly.resume (h : Orderly db) (hstarting : db.starting = [])
    (hwait : db.followUps[index]? = some (.waiting run)) : Orderly (db.resume index) := by
  -- the follow-up that is resumed is the only one that waits
  have hsome : db.syncStoreChangesQueued = some index := (h.queued index).mpr ⟨run, hwait⟩
  have honly {other run' : ℕ} (hother : db.followUps[other]? = some (.waiting run')) :
      other = index :=
    Option.some.inj (((h.queued other).mpr ⟨run', hother⟩).symm.trans hsome)
  have hlt : index < db.followUps.length := (List.getElem?_eq_some_iff.mp hwait).1
  unfold Database.resume Database.syncStoreChanges
  dsimp only
  split
  · rename_i busy hbusy
    have hget (other : ℕ) := getElem?_set_of_lt (l := db.followUps ++ [.waiting busy])
      (by rw [length_append]; exact Nat.lt_add_right _ hlt)
      (.following (.followUp db.followUps.length)) other
    refine ⟨.inl hstarting, fun run told hrun => absurd hrun (h.notAnnouncing hstarting run told),
      h.inFlight, fun other => ?_, fun other run' hother => ?_, fun other run' hother => ?_,
      fun other later hother => ?_⟩
    · rw [hget, getElem?_concat]
      split
      · rename_i heq
        exact iff_of_false (fun hlast => hlt.ne ((Option.some.inj hlast).trans heq).symm) nofun
      · split
        · rename_i heq
          exact ⟨fun _ => ⟨busy, rfl⟩, fun _ => congrArg some heq.symm⟩
        · rename_i hne hlast
          exact iff_of_false (fun heq => hlast (Option.some.inj heq).symm)
            fun ⟨_, hother⟩ => hne (honly hother)
    · rw [hget, getElem?_concat] at hother
      split at hother
      · cases hother
      · split at hother
        · cases hother
          exact h.lt_of_inFlight hbusy
        · exact h.waiting other run' hother
    · rw [hget, getElem?_concat] at hother
      split at hother
      · cases hother
      · split at hother
        · cases hother
        · exact h.followingRun other run' hother
    · rw [hget, getElem?_concat] at hother
      rw [length_set, length_append]
      split at hother
      · cases hother
        exact ⟨by omega, Nat.lt_succ_self _⟩
      · split at hother
        · cases hother
        · obtain ⟨hlater, hlength⟩ := h.followingFollowUp other later hother
          exact ⟨hlater, Nat.lt_add_right _ hlength⟩
  · rename_i hnone
    have hget (other : ℕ) := getElem?_set_of_lt hlt (.following (.run db.runs.length)) other
    have hstart : Orderly { db with
        runs := db.runs ++ [.announcing (db.changeNotificationHolds = 0
          && db.pendingChangeNotifications)]
        starting := db.runs.length :: db.starting } :=
      h.start hstarting hnone rfl rfl rfl hnone rfl
    refine ⟨hstart.starting, hstart.announcing, hstart.inFlight, fun other => ⟨nofun, ?_⟩,
      fun other run' hother => ?_, fun other run' hother => ?_, fun other later hother => ?_⟩
    · rintro ⟨run', hother⟩
      rw [hget] at hother
      split at hother
      · cases hother
      · exact absurd (honly hother) ‹_›
    · rw [hget] at hother
      split at hother
      · cases hother
      · exact hstart.waiting other run' hother
    · rw [hget] at hother
      split at hother
      · cases hother
        rw [length_append]
        exact Nat.lt_succ_self _
      · exact hstart.followingRun other run' hother
    · rw [hget] at hother
      rw [length_set]
      split at hother
      · cases hother
      · exact hstart.followingFollowUp other later hother

/-! ## Whom a run covers -/

/-- **A promise settles with a run** that is not among the first `before`, or one that is still to
be started. -/
inductive Covered (db : Database) (before : ℕ) : Awaited → Prop
  | run {run : ℕ} : before ≤ run → run < db.runs.length → Covered db before (.run run)
  | waiting {index run : ℕ} : db.followUps[index]? = some (.waiting run) →
      before ≤ db.runs.length → Covered db before (.followUp index)
  | following {index : ℕ} {awaited : Awaited} : db.followUps[index]? = some (.following awaited) →
      Covered db before awaited → Covered db before (.followUp index)
  | settled {index run : ℕ} {outcome : Outcome} : db.followUps[index]? = some (.settled outcome) →
      before ≤ run → db.runs[run]? = some (.settled outcome) → Covered db before (.followUp index)

variable {before : ℕ} {awaited : Awaited} {outcome : Outcome}

/-- A run not among the first `before` has settled so. -/
def SettledSince (db : Database) (before : ℕ) (outcome : Outcome) : Prop :=
  ∃ run, before ≤ run ∧ db.runs[run]? = some (.settled outcome)

/-- **A promise that settles** does so with a run that covers it. -/
theorem Covered.settledSince (h : Covered db before awaited)
    (houtcome : db.outcomeOf awaited = some outcome) : SettledSince db before outcome := by
  induction h generalizing outcome with
  | run hbefore _ => exact ⟨_, hbefore, outcomeOf_run.mp houtcome⟩
  | waiting hwait _ =>
    rw [outcomeOf_followUp, hwait] at houtcome
    cases houtcome
  | following hfollow _ _ =>
    rw [outcomeOf_followUp, hfollow] at houtcome
    cases houtcome
  | settled hsettled hbefore hrun =>
    rw [outcomeOf_followUp, hsettled] at houtcome
    cases houtcome
    exact ⟨_, hbefore, hrun⟩

/-- What a job does to the runs and the follow-ups. -/
structure Extends (db db' : Database) : Prop where
  length : db.runs.length ≤ db'.runs.length
  settledRun : ∀ (run : ℕ) outcome, db.runs[run]? = some (.settled outcome) →
    db'.runs[run]? = some (.settled outcome)
  waiting : ∀ index run : ℕ, db.followUps[index]? = some (.waiting run) →
    db'.followUps[index]? = some (.waiting run) ∨
      ∃ awaited, db'.followUps[index]? = some (.following awaited) ∧
        Covered db' db.runs.length awaited
  following : ∀ (index : ℕ) awaited, db.followUps[index]? = some (.following awaited) →
    db'.followUps[index]? = some (.following awaited) ∨
      ∃ outcome, db'.followUps[index]? = some (.settled outcome) ∧
        db.outcomeOf awaited = some outcome
  settled : ∀ (index : ℕ) outcome, db.followUps[index]? = some (.settled outcome) →
    db'.followUps[index]? = some (.settled outcome)

theorem Covered.of_le {before' : ℕ} (hle : before ≤ before') (h : Covered db before' awaited) :
    Covered db before awaited := by
  induction h with
  | run hbefore hrun => exact .run (hle.trans hbefore) hrun
  | waiting hwait hbefore => exact .waiting hwait (hle.trans hbefore)
  | following hfollow _ ih => exact .following hfollow ih
  | settled hsettled hbefore hrun => exact .settled hsettled (hle.trans hbefore) hrun

/-- **A promise stays covered.** -/
theorem Covered.extends {db' : Database} (hextends : Extends db db')
    (h : Covered db before awaited) : Covered db' before awaited := by
  induction h with
  | run hbefore hrun => exact .run hbefore (hrun.trans_le hextends.length)
  | waiting hwait hbefore =>
    rcases hextends.waiting _ _ hwait with hwait' | ⟨awaited, hfollow, hcovered⟩
    · exact .waiting hwait' (hbefore.trans hextends.length)
    · exact .following hfollow (hcovered.of_le hbefore)
  | following hfollow hcovered ih =>
    rcases hextends.following _ _ hfollow with hfollow' | ⟨outcome, hsettled, houtcome⟩
    · exact .following hfollow' ih
    · obtain ⟨run, hbefore, hrun⟩ := hcovered.settledSince houtcome
      exact .settled hsettled hbefore (hextends.settledRun _ _ hrun)
  | settled hsettled hbefore hrun =>
    exact .settled (hextends.settled _ _ hsettled) hbefore (hextends.settledRun _ _ hrun)

/-- A new promise is covered by a run that is still to be started. -/
theorem Orderly.covered (h : Orderly db) :
    Covered db.syncStoreChanges.2 db.runs.length db.syncStoreChanges.1 := by
  unfold Database.syncStoreChanges
  split
  · split
    · rename_i queued hqueued
      obtain ⟨run, hwait⟩ := (h.queued queued).mp hqueued
      exact .waiting hwait le_rfl
    · exact .waiting getElem?_concat_length le_rfl
  · exact .run le_rfl (by simp)

theorem extends_call : Extends db db.call := by
  unfold Database.call Database.syncStoreChanges
  dsimp only
  split
  · split
    · constructor <;> grind
    · constructor <;> grind
  · constructor <;> grind

/-- What becomes of the runs when one that has not settled goes on. -/
theorem extends_of_runs {db' : Database} {phase : RunPhase}
    (hrun : ∀ outcome, db.runs[run]? ≠ some (.settled outcome))
    (hruns : db'.runs = db.runs.set run phase) (hfollowUps : db'.followUps = db.followUps) :
    Extends db db' := by
  constructor <;> grind

/-- What a follow-up that is resumed waits for. -/
theorem covered_resume (hindex : index < db.followUps.length) :
    ∃ awaited, (db.resume index).followUps[index]? = some (.following awaited) ∧
      Covered (db.resume index) db.runs.length awaited := by
  unfold Database.resume Database.syncStoreChanges
  dsimp only
  split
  · rename_i busy _
    have hnew : ((db.followUps ++ [FollowUp.waiting busy]).set index
        (.following (.followUp db.followUps.length)))[db.followUps.length]? =
          some (.waiting busy) := by
      rw [getElem?_set_ne hindex.ne, getElem?_concat_length]
    exact ⟨.followUp db.followUps.length, by grind, .waiting hnew le_rfl⟩
  · exact ⟨.run db.runs.length, by grind, .run le_rfl (by grind)⟩

theorem extends_resume (hwait : db.followUps[index]? = some (.waiting run)) :
    Extends db (db.resume index) := by
  obtain ⟨awaited, hfollow, hcovered⟩ :=
    covered_resume (List.getElem?_eq_some_iff.mp hwait).1
  have hother {other : ℕ} {phase : FollowUp} (hne : other ≠ index)
      (hphase : db.followUps[other]? = some phase) :
      (db.resume index).followUps[other]? = some phase := by
    unfold Database.resume Database.syncStoreChanges
    dsimp only
    split <;> grind
  have hruns : db.runs <+: (db.resume index).runs := by
    unfold Database.resume Database.syncStoreChanges
    dsimp only
    split
    · exact prefix_rfl
    · exact prefix_append _ _
  refine ⟨hruns.length_le, fun run outcome hrun => ?_, fun other run' hphase => ?_,
    fun other awaited' hphase => ?_, fun other outcome hphase => ?_⟩
  · obtain ⟨rest, hrest⟩ := hruns
    rw [← hrest]
    grind
  · by_cases hne : other = index
    · exact .inr ⟨awaited, hne ▸ hfollow, hcovered⟩
    · exact .inl (hother hne hphase)
  · exact .inl (hother (by grind) hphase)
  · exact hother (by grind) hphase

theorem extends_settleFollowUp (hfollow : db.followUps[index]? = some (.following awaited))
    (houtcome : db.outcomeOf awaited = some outcome) :
    Extends db (db.settleFollowUp index outcome) := by
  unfold Database.settleFollowUp
  constructor <;> grind

/-! ## The jobs -/

/-- **What one job does**, if no listener calls. -/
inductive Job (db : Database) : Event → Database → Prop
  | noteChange : db.starting = [] →
      Job db .noteChange { db with pendingChangeNotifications := true }
  | changeTimer : db.starting = [] → db.changeNotificationHolds = 0 →
      Job db .changeTimer { db with pendingChangeNotifications := false }
  | call : db.starting = [] → Job db .call db.call
  | launch {run : ℕ} {starting : List ℕ} : db.starting = run :: starting →
      Job db .launch (db.launch run starting)
  | finish {run : ℕ} {outcome : Outcome} : db.starting = [] → db.runs[run]? = some .active →
      Job db (.finish run outcome) (db.finish run outcome)
  | clear {run : ℕ} {outcome : Outcome} : db.starting = [] →
      db.runs[run]? = some (.finished outcome) → Job db (.clear run) (db.clear run outcome)
  | settleRun {run : ℕ} {outcome : Outcome} : db.starting = [] →
      db.runs[run]? = some (.cleared outcome) → Job db (.settleRun run) (db.settleRun run outcome)
  | resume {followUp run : ℕ} {outcome : Outcome} : db.starting = [] →
      db.followUps[followUp]? = some (.waiting run) →
      db.runs[run]? = some (.settled outcome) → Job db (.resume followUp) (db.resume followUp)
  | settleFollowUp {followUp : ℕ} {awaited : Awaited} {outcome : Outcome} : db.starting = [] →
      db.followUps[followUp]? = some (.following awaited) →
      db.outcomeOf awaited = some outcome →
      Job db (.settleFollowUp followUp) (db.settleFollowUp followUp outcome)
  | settleCall {index : ℕ} {call : Call} {outcome : Outcome} : db.starting = [] →
      db.calls[index]? = some call → call.outcome = none →
      db.outcomeOf call.awaits = some outcome →
      Job db (.settleCall index) (db.settleCall index call outcome)

/-- No listener calls at the start of a run. -/
def NoListenerCall (db : Database) (event : Event) : Prop :=
  event = .listenerCall → step db event = db

instance (db : Database) (event : Event) : Decidable (NoListenerCall db event) :=
  inferInstanceAs (Decidable (event = .listenerCall → step db event = db))

theorem step_cases {event : Event} (h : NoListenerCall db event) :
    step db event = db ∨ Job db event (step db event) := by
  cases event with
  | noteChange =>
    rw [step]
    split
    · exact .inr (.noteChange ‹_›)
    · exact .inl rfl
  | changeTimer =>
    rw [step]
    split
    · rename_i hstarting
      exact .inr (.changeTimer hstarting.1 hstarting.2)
    · exact .inl rfl
  | call =>
    rw [step]
    split
    · exact .inr (.call ‹_›)
    · exact .inl rfl
  | listenerCall => exact .inl (h rfl)
  | launch =>
    rw [step]
    split
    · exact .inl rfl
    · exact .inr (.launch ‹_›)
  | finish run outcome =>
    rw [step]
    split
    · rename_i hrun
      exact .inr (.finish hrun.1 hrun.2)
    · exact .inl rfl
  | clear run =>
    rw [step]
    split
    · exact .inr (.clear ‹_› ‹_›)
    · exact .inl rfl
  | settleRun run =>
    rw [step]
    split
    · exact .inr (.settleRun ‹_› ‹_›)
    · exact .inl rfl
  | resume followUp =>
    rw [step]
    split
    · rename_i run hstarting hwait
      split
      · rename_i hsome
        obtain ⟨outcome, houtcome⟩ := Option.isSome_iff_exists.mp hsome
        exact .inr (.resume hstarting hwait (outcomeOf_run.mp houtcome))
      · exact .inl rfl
    · exact .inl rfl
  | settleFollowUp followUp =>
    rw [step]
    split
    · split
      · exact .inr (.settleFollowUp ‹_› ‹_› ‹_›)
      · exact .inl rfl
    · exact .inl rfl
  | settleCall index =>
    rw [step]
    split
    · split
      · exact .inr (.settleCall ‹_› ‹_› ‹_› ‹_›)
      · exact .inl rfl
    · exact .inl rfl

variable {db' : Database} {event : Event}

theorem Orderly.job (h : Orderly db) (hjob : Job db event db') : Orderly db' := by
  cases hjob with
  | noteChange | changeTimer | settleCall =>
    obtain ⟨h₁, h₂, h₃, h₄, h₅, h₆, h₇⟩ := h
    exact ⟨h₁, h₂, h₃, h₄, h₅, h₆, h₇⟩
  | call hstarting => exact h.call hstarting
  | launch hstarting => exact h.launch hstarting
  | finish hstarting hrun => exact h.finish hstarting hrun
  | clear hstarting hrun => exact h.clear hstarting hrun
  | settleRun hstarting hrun => exact h.settleRun hstarting hrun
  | resume hstarting hwait _ => exact h.resume hstarting hwait
  | settleFollowUp hstarting hfollow _ => exact h.settleFollowUp hstarting hfollow

theorem extends_of_eq (hruns : db'.runs = db.runs) (hfollowUps : db'.followUps = db.followUps) :
    Extends db db' := by
  refine ⟨hruns ▸ le_rfl, ?_, ?_, ?_, ?_⟩
  · exact fun run outcome hrun => hruns ▸ hrun
  · exact fun index run hwait => .inl (hfollowUps ▸ hwait)
  · exact fun index awaited hfollow => .inl (hfollowUps ▸ hfollow)
  · exact fun index outcome hsettled => hfollowUps ▸ hsettled

theorem extends_job (h : Orderly db) (hjob : Job db event db') : Extends db db' := by
  cases hjob with
  | noteChange _ | changeTimer _ _ => exact extends_of_eq rfl rfl
  | call _ => exact extends_call
  | launch hstarting =>
    refine extends_of_runs (fun outcome hsettled => ?_) rfl rfl
    rcases h.starting with hnil | ⟨run, told, hrun, hphase, -⟩
    · rw [hnil] at hstarting
      cases hstarting
    · rw [hrun] at hstarting
      cases hstarting
      rw [hphase] at hsettled
      cases hsettled
  | finish _ hrun | clear _ hrun =>
    exact extends_of_runs (fun _ h => nomatch hrun.symm.trans h) rfl rfl
  | settleRun _ hrun => exact extends_of_runs (fun _ h => nomatch hrun.symm.trans h) rfl rfl
  | resume _ hwait _ => exact extends_resume hwait
  | settleFollowUp _ hfollow houtcome => exact extends_settleFollowUp hfollow houtcome
  | settleCall _ _ _ _ => exact extends_of_eq rfl rfl

/-- **Every caller is covered** by a run that was not started before it called. -/
def AllCovered (db : Database) : Prop :=
  ∀ call ∈ db.calls, Covered db call.runsBefore call.awaits ∧
    ∀ outcome, call.outcome = some outcome → SettledSince db call.runsBefore outcome

theorem AllCovered.extends (h : AllCovered db) (hextends : Extends db db') :
    ∀ call ∈ db.calls, Covered db' call.runsBefore call.awaits ∧
      ∀ outcome, call.outcome = some outcome → SettledSince db' call.runsBefore outcome := by
  intro call hcall
  obtain ⟨hcovered, hsettled⟩ := h call hcall
  refine ⟨hcovered.extends hextends, fun outcome houtcome => ?_⟩
  obtain ⟨run, hbefore, hrun⟩ := hsettled outcome houtcome
  exact ⟨run, hbefore, hextends.settledRun _ _ hrun⟩

theorem AllCovered.job (horderly : Orderly db) (h : AllCovered db) (hjob : Job db event db') :
    AllCovered db' := by
  have hold := h.extends (extends_job horderly hjob)
  cases hjob with
  | call hstarting =>
    intro call hcall
    rcases mem_append.mp hcall with hmem | hmem
    · exact hold call (calls_syncStoreChanges db ▸ hmem)
    · rw [mem_singleton] at hmem
      subst hmem
      have hextends : Extends db.syncStoreChanges.2 db.call := extends_of_eq rfl rfl
      exact ⟨horderly.covered.extends hextends, nofun⟩
  | resume _ hwait _ =>
    exact fun call hcall => hold call (calls_syncStoreChanges { db with
      syncStoreChangesQueued := none } ▸ hcall)
  | settleCall _ hcall _ houtcome =>
    intro call' hcall'
    rcases mem_or_eq_of_mem_set hcall' with hmem | rfl
    · exact hold call' hmem
    · have hcovered := (hold _ (mem_of_getElem? hcall)).1
      refine ⟨hcovered, fun outcome' heq => ?_⟩
      cases heq
      exact hcovered.settledSince houtcome
  | _ => exact hold

end MindooDB.CoalescedSync
