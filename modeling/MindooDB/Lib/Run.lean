import Mathlib

/-!
# Lib/Run — the runs of a step function

A system takes one step for each event.  `AllSteps` asks of every step of a run that it meets a
condition, which may look at the state before it; what such steps keep holds at the end of the run
(`Run.induction`).  A log to which every step adds what it does is the run over again
(`Run.Logs.replay_run`).  Of a system that answers, callers know the answers only (`Run.answers_eq`).
-/

namespace MindooDB

open List

namespace Run

variable {σ ε : Type*} (step : σ → ε → σ)

/-- The state after some events. -/
def run (s : σ) (events : List ε) : σ := events.foldl step s

/-- Every step of a run meets a condition. -/
def AllSteps (condition : σ → ε → Prop) : σ → List ε → Prop
  | _, [] => True
  | s, event :: events => condition s event ∧ AllSteps condition (step s event) events

instance instDecidableAllSteps (condition : σ → ε → Prop) [∀ s event, Decidable (condition s event)]
    (events : List ε) : ∀ s, Decidable (AllSteps step condition s events) :=
  match events with
  | [] => fun _ => inferInstanceAs (Decidable True)
  | event :: events => fun s =>
    have := instDecidableAllSteps condition events (step s event)
    inferInstanceAs (Decidable (condition s event ∧ AllSteps step condition (step s event) events))

variable {step} {condition : σ → ε → Prop} {s : σ}

theorem run_append (events events' : List ε) :
    run step s (events ++ events') = run step (run step s events) events' := foldl_append

/-- A condition that is implied is met as well. -/
theorem AllSteps.mono {condition' : σ → ε → Prop}
    (himp : ∀ s event, condition s event → condition' s event) {events : List ε}
    (h : AllSteps step condition s events) : AllSteps step condition' s events := by
  induction events generalizing s with
  | nil => trivial
  | cons event events ih => exact ⟨himp s event h.1, ih h.2⟩

/-- **What every step keeps holds after a run.** -/
protected theorem induction {motive : σ → Prop} (hstart : motive s)
    (hstep : ∀ s event, motive s → condition s event → motive (step s event)) {events : List ε}
    (hall : AllSteps step condition s events) : motive (run step s events) := by
  induction events generalizing s with
  | nil => exact hstart
  | cons event events ih => exact ih (hstep s event hstart hall.1) hall.2

/-- **A property that each step keeps exactly when it meets the condition** holds after a run exactly
when all steps do. -/
theorem run_iff {invariant : σ → Prop} (good : σ → Prop) (hstart : invariant s)
    (hinvariant : ∀ s event, invariant s → invariant (step s event))
    (hstep : ∀ s event, invariant s → (good (step s event) ↔ good s ∧ condition s event))
    (events : List ε) : good (run step s events) ↔ good s ∧ AllSteps step condition s events := by
  induction events generalizing s with
  | nil => exact (and_iff_left trivial).symm
  | cons event events ih =>
    calc good (run step (step s event) events)
        ↔ good (step s event) ∧ AllSteps step condition (step s event) events :=
          ih (hinvariant s event hstart)
      _ ↔ good s ∧ AllSteps step condition s (event :: events) := by
          rw [hstep s event hstart, and_assoc, AllSteps]

/-! ## A log of the run -/

section Log

variable {δ : Type*}

/-- **Every step logs what it does**: it does nothing, or what some entry does, which it adds to the
log. -/
def Logs (step : σ → ε → σ) (replay : σ → δ → σ) (log : σ → List δ) : Prop :=
  ∀ s event, step s event = s ∨ ∃ entry, step s event = replay s entry
    ∧ log (step s event) = log s ++ [entry]

/-- **The log of a run rebuilds its last state.** -/
theorem Logs.replay_run {replay : σ → δ → σ} {log : σ → List δ} (h : Logs step replay log)
    (hstart : log s = []) (events : List ε) :
    (log (run step s events)).foldl replay s = run step s events := by
  induction events using List.reverseRecOn with
  | nil => rw [run, foldl_nil, hstart, foldl_nil]
  | append_singleton events event ih =>
    rw [run_append]
    change (log (step (run step s events) event)).foldl replay s = step (run step s events) event
    rcases h (run step s events) event with hsame | ⟨entry, hstep, hlog⟩
    · rw [hsame, ih]
    · rw [hlog, foldl_append, ih, hstep]
      rfl

end Log

/-! ## The states of a run -/

section Visits

variable (step) (s)

/-- A run comes through a state with a property. -/
def Visits (P : σ → Prop) (events : List ε) : Prop :=
  ∃ before, before <+: events ∧ P (run step s before)

variable {step} {s}

theorem visits_run {P : σ → Prop} {events : List ε} (h : P (run step s events)) :
    Visits step s P events := ⟨events, prefix_rfl, h⟩

/-- What a run came through, a longer one came through. -/
theorem Visits.append {P : σ → Prop} {events : List ε} (h : Visits step s P events)
    (more : List ε) : Visits step s P (events ++ more) := by
  obtain ⟨before, hprefix, hP⟩ := h
  exact ⟨before, hprefix.trans (prefix_append _ _), hP⟩

theorem allSteps_append {events more : List ε} :
    AllSteps step condition s (events ++ more)
      ↔ AllSteps step condition s events ∧ AllSteps step condition (run step s events) more := by
  induction events generalizing s with
  | nil => exact (and_iff_right trivial).symm
  | cons event events ih =>
    rw [cons_append, AllSteps, ih, AllSteps, and_assoc]
    rfl

/-- **Induction on the history of a run.** -/
theorem history_induction {motive : List ε → Prop} (hstart : motive [])
    (hstep : ∀ events event, motive events → condition (run step s events) event →
      motive (events ++ [event])) {events : List ε} (hall : AllSteps step condition s events) :
    motive events := by
  induction events using List.reverseRecOn with
  | nil => exact hstart
  | append_singleton events event ih =>
    obtain ⟨hbefore, hlast⟩ := allSteps_append.mp hall
    exact hstep events event (ih hbefore) hlast.1

end Visits

/-! ## Systems that answer -/

section Answers

variable {σ σ' ε ο : Type*}

/-- What a system answers to some calls. -/
def answers (step : σ → ε → σ × ο) : σ → List ε → List ο
  | _, [] => []
  | s, event :: events => (step s event).2 :: answers step (step s event).1 events

variable {step : σ → ε → σ × ο} {step' : σ' → ε → σ' × ο} {R : σ → σ' → Prop}
  {condition : ε → Prop}

/-- **A simulation that answers alike** cannot be told apart. -/
theorem answers_eq (hstep : ∀ s s' event, R s s' → condition event →
      (step s event).2 = (step' s' event).2 ∧ R (step s event).1 (step' s' event).1)
    {events : List ε} (hall : ∀ event ∈ events, condition event) {s : σ} {s' : σ'} (hR : R s s') :
    answers step s events = answers step' s' events := by
  induction events generalizing s s' with
  | nil => rfl
  | cons event events ih =>
    obtain ⟨hanswer, hR'⟩ := hstep s s' event hR (hall event mem_cons_self)
    rw [answers, answers, hanswer,
      ih (fun event hmem => hall event (mem_cons_of_mem _ hmem)) hR']

end Answers

end Run

end MindooDB
