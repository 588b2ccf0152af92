import MindooDB.Lib.Run
import MindooDB.Lib.Semaphore

/-!
# Network/RequestScheduler — the gate for requests to a server

`appendonlystores/network/RequestScheduler.ts`: a request waits out a pause, gets a slot, waits out
a pause again and starts.  What stands between two awaits of `run` is one step here, and requests,
timers and the clock take turns in any order.

The slots are those of a semaphore (`isSemaphore_run`).  Between the last look at the pause and the
start of a task there is an `await`, though, in which a pause may begin; where none does, no task
starts while the gate is paused (`orderly_run`).
-/

namespace MindooDB

open List

/-- The state of a gate.  `waiters` are the requests behind the callbacks. -/
structure RequestScheduler (ι : Type) where
  maxConcurrent : ℕ
  maxPauseMs : ℚ
  active : ℕ := 0
  waiters : List ι := []
  pausedUntil : ℚ := 0

namespace RequestScheduler

variable {ι : Type}

def DEFAULT_MAX_CONCURRENT_REQUESTS : ℕ := 6

def DEFAULT_MAX_PAUSE_MS : ℚ := 30000

def DEFAULT_FALLBACK_PAUSE_MS : ℚ := 1000

/-- The constructor, with the options that are given. -/
def new (ι : Type) (maxConcurrent : Option ℕ) (maxPauseMs : Option ℚ) : RequestScheduler ι where
  maxConcurrent := max 1 (maxConcurrent.getD DEFAULT_MAX_CONCURRENT_REQUESTS)
  maxPauseMs := max 0 (maxPauseMs.getD DEFAULT_MAX_PAUSE_MS)

variable (scheduler : RequestScheduler ι)

def activeCount : ℕ := scheduler.active

def queuedCount : ℕ := scheduler.waiters.length

def isPaused (now : ℚ) : Bool := scheduler.pausedUntil > now

/-- `none` is a number that is not finite. -/
def pauseFor (now : ℚ) (delayMs : Option ℚ) : RequestScheduler ι :=
  match delayMs with
  | none => scheduler
  | some delayMs =>
    if delayMs ≤ 0 then scheduler
    else
      let until_ := now + min delayMs scheduler.maxPauseMs
      if until_ > scheduler.pausedUntil then { scheduler with pausedUntil := until_ } else scheduler

/-- `none` is a number that is not finite, or missing. -/
def pauseForRateLimit (now : ℚ) (retryAfterMs : Option ℚ) : RequestScheduler ι :=
  scheduler.pauseFor now
    (match retryAfterMs with
    | some retryAfterMs => if retryAfterMs > 0 then some retryAfterMs else DEFAULT_FALLBACK_PAUSE_MS
    | none => DEFAULT_FALLBACK_PAUSE_MS)

/-- A pause is extended at most. -/
theorem exists_pauseFor_eq (now : ℚ) (delayMs : Option ℚ) :
    ∃ pausedUntil, scheduler.pausedUntil ≤ pausedUntil
      ∧ scheduler.pauseFor now delayMs = { scheduler with pausedUntil } := by
  cases delayMs with
  | none => exact ⟨scheduler.pausedUntil, le_rfl, rfl⟩
  | some delayMs =>
    rw [pauseFor]
    dsimp only
    split_ifs with hnone hlater
    · exact ⟨scheduler.pausedUntil, le_rfl, rfl⟩
    · exact ⟨_, hlater.le, rfl⟩
    · exact ⟨scheduler.pausedUntil, le_rfl, rfl⟩

/-- Whether there is a slot at once; else `request` waits. -/
def acquireSlot (request : ι) : RequestScheduler ι × Bool :=
  if scheduler.waiters.length = 0 ∧ scheduler.active < scheduler.maxConcurrent then
    ({ scheduler with active := scheduler.active + 1 }, true)
  else ({ scheduler with waiters := scheduler.waiters ++ [request] }, false)

/-- The request that the slot is handed to, if one waits. -/
def releaseSlot : RequestScheduler ι × Option ι :=
  match scheduler.waiters with
  | next :: waiters => ({ scheduler with waiters }, some next)
  | [] => ({ scheduler with active := max 0 (scheduler.active - 1) }, none)

end RequestScheduler

/-! ## Requests -/

/-- How far a call of `run` has come. -/
inductive GatePhase
  | idle
  /-- It sleeps in `waitOutPause`, before or after it got its slot. -/
  | sleeping (hasSlot : Bool)
  /-- It has found no pause, and goes on. -/
  | cleared (hasSlot : Bool)
  /-- It waits for a slot. -/
  | queued
  /-- It has got its slot. -/
  | acquired
  | running
  /-- Its task has been fulfilled or rejected. -/
  | settled (fulfilled : Bool)
  | returned (fulfilled : Bool)
  deriving DecidableEq

/-- The start of a task, and whether the gate was paused then. -/
structure TaskStart (ι : Type) where
  request : ι
  isPaused : Bool
  deriving DecidableEq

/-- A gate, the clock, its requests and what has happened to them, in this order. -/
structure RequestGate (ι : Type) where
  scheduler : RequestScheduler ι
  now : ℚ
  phase : ι → GatePhase := fun _ => .idle
  asked : List ι := []
  granted : List ι := []
  released : List ι := []
  starts : List (TaskStart ι) := []

namespace RequestGate

variable {ι : Type} [DecidableEq ι]

inductive Event (ι : Type)
  | run (request : ι)
  /-- A timer of a request fires. -/
  | wake (request : ι)
  /-- A request goes on behind an `await` that is over. -/
  | resume (request : ι)
  | settle (request : ι) (fulfilled : Bool)
  | pauseFor (delayMs : Option ℚ)
  | pauseForRateLimit (retryAfterMs : Option ℚ)
  | advance (time : ℚ)

/-- A request is in another phase. -/
def setPhase (gate : RequestGate ι) (request : ι) (phase : GatePhase) : RequestGate ι :=
  { gate with phase := Function.update gate.phase request phase }

/-- `waitOutPause` up to its next `await`. -/
def waitOutPause (gate : RequestGate ι) (request : ι) (hasSlot : Bool) : RequestGate ι :=
  let remaining := gate.scheduler.pausedUntil - gate.now
  gate.setPhase request (if remaining ≤ 0 then .cleared hasSlot else .sleeping hasSlot)

/-- `run` behind its first `waitOutPause`. -/
def acquire (gate : RequestGate ι) (request : ι) : RequestGate ι :=
  match gate.scheduler.acquireSlot request with
  | (scheduler, true) => { gate.setPhase request .acquired with
      scheduler, asked := gate.asked ++ [request], granted := gate.granted ++ [request] }
  | (scheduler, false) => { gate.setPhase request .queued with
      scheduler, asked := gate.asked ++ [request] }

/-- The task of `run` is called. -/
def start (gate : RequestGate ι) (request : ι) : RequestGate ι :=
  { gate.setPhase request .running with
    starts := gate.starts ++ [⟨request, gate.scheduler.isPaused gate.now⟩] }

/-- `finally`. -/
def release (gate : RequestGate ι) (request : ι) (fulfilled : Bool) : RequestGate ι :=
  match gate.scheduler.releaseSlot with
  | (scheduler, some next) =>
    { (gate.setPhase request (.returned fulfilled)).setPhase next .acquired with
      scheduler, granted := gate.granted ++ [next], released := gate.released ++ [request] }
  | (scheduler, none) => { gate.setPhase request (.returned fulfilled) with
      scheduler, released := gate.released ++ [request] }

/-- **One step**; one whose turn has not come does nothing. -/
def step (gate : RequestGate ι) : Event ι → RequestGate ι
  | .run request =>
    match gate.phase request with
    | .idle => gate.waitOutPause request false
    | _ => gate
  | .wake request =>
    match gate.phase request with
    | .sleeping hasSlot => gate.waitOutPause request hasSlot
    | _ => gate
  | .resume request =>
    match gate.phase request with
    | .cleared false => gate.acquire request
    | .acquired => gate.waitOutPause request true
    | .cleared true => gate.start request
    | .settled fulfilled => gate.release request fulfilled
    | _ => gate
  | .settle request fulfilled =>
    match gate.phase request with
    | .running => gate.setPhase request (.settled fulfilled)
    | _ => gate
  | .pauseFor delayMs => { gate with scheduler := gate.scheduler.pauseFor gate.now delayMs }
  | .pauseForRateLimit retryAfterMs =>
    { gate with scheduler := gate.scheduler.pauseForRateLimit gate.now retryAfterMs }
  | .advance time => { gate with now := max gate.now time }

/-- A gate without requests. -/
def initial (scheduler : RequestScheduler ι) (now : ℚ) : RequestGate ι := { scheduler, now }

end RequestGate

/-! ## The semaphore -/

def GatePhase.place : GatePhase → SlotPlace
  | .idle | .sleeping false | .cleared false => .outside
  | .queued => .queue
  | .sleeping true | .cleared true | .acquired | .running | .settled _ => .slot
  | .returned _ => .gone

namespace RequestGate

variable {ι : Type} [DecidableEq ι] {gate : RequestGate ι}

/-- **A gate that runs a semaphore.** -/
structure Tracks (gate : RequestGate ι) (s : Semaphore ι gate.scheduler.maxConcurrent) : Prop where
  active : gate.scheduler.active = s.holders.length
  waiters : gate.scheduler.waiters = s.waiters
  asked : gate.asked = s.asked
  granted : gate.granted = s.granted
  released : gate.released = s.released
  place : ∀ i, (gate.phase i).place = s.place i

/-- A gate that runs some semaphore. -/
def IsSemaphore (gate : RequestGate ι) : Prop := ∃ s, Tracks gate s

theorem place_setPhase (gate : RequestGate ι) (request : ι) (phase : GatePhase) (i : ι) :
    ((gate.setPhase request phase).phase i).place
      = if i = request then phase.place else (gate.phase i).place := by
  rw [setPhase]
  dsimp only
  rw [Function.update_apply]
  split_ifs <;> rfl

variable {request : ι}

section

variable (h : IsSemaphore gate)

include h

/-- What does not move a request leaves the semaphore. -/
theorem IsSemaphore.setPhase {phase : GatePhase}
    (hplace : phase.place = (gate.phase request).place) :
    IsSemaphore (gate.setPhase request phase) := by
  obtain ⟨s, hs⟩ := h
  refine ⟨s, hs.active, hs.waiters, hs.asked, hs.granted, hs.released, fun i => ?_⟩
  rw [place_setPhase]
  split_ifs with hi
  · rw [hplace, hi]
    exact hs.place request
  · exact hs.place i

theorem IsSemaphore.waitOutPause {hasSlot : Bool}
    (hplace : (GatePhase.sleeping hasSlot).place = (gate.phase request).place) :
    IsSemaphore (gate.waitOutPause request hasSlot) := by
  refine h.setPhase ?_
  rw [← hplace]
  split_ifs
  · cases hasSlot <;> rfl
  · rfl

/-- A request asks for a slot. -/
theorem IsSemaphore.acquire (hi : (gate.phase request).place = .outside) :
    IsSemaphore (gate.acquire request) := by
  obtain ⟨s, hs⟩ := h
  have hnew : request ∉ s.asked := s.place_eq_outside_iff.mp ((hs.place request).symm.trans hi)
  unfold RequestGate.acquire RequestScheduler.acquireSlot
  by_cases hfree : gate.scheduler.waiters.length = 0
      ∧ gate.scheduler.active < gate.scheduler.maxConcurrent
  · rw [if_pos hfree]
    obtain ⟨hnone, hlt⟩ := hfree
    rw [hs.waiters] at hnone
    rw [hs.active] at hlt
    refine ⟨s.grant hnew (eq_nil_of_length_eq_zero hnone) hlt, ?_, hs.waiters,
      congrArg (· ++ [request]) hs.asked, congrArg (· ++ [request]) hs.granted, hs.released,
      fun i => ?_⟩
    · change gate.scheduler.active + 1 = (s.holders ++ [request]).length
      rw [hs.active, length_append, length_singleton]
    · rw [s.place_grant, ← hs.place]
      exact place_setPhase gate request .acquired i
  · rw [if_neg hfree]
    have hfull : s.holders.length = gate.scheduler.maxConcurrent := by
      rw [hs.waiters, hs.active, not_and_or, not_lt] at hfree
      rcases hfree with hsome | hle
      · exact s.full fun hnil => hsome (congrArg List.length hnil)
      · exact le_antisymm s.length_le hle
    refine ⟨s.enqueue hnew hfull, hs.active, congrArg (· ++ [request]) hs.waiters,
      congrArg (· ++ [request]) hs.asked, hs.granted, hs.released, fun i => ?_⟩
    rw [s.place_enqueue, ← hs.place]
    exact place_setPhase gate request .queued i

/-- A request releases its slot. -/
theorem IsSemaphore.release {fulfilled : Bool} (hi : (gate.phase request).place = .slot) :
    IsSemaphore (gate.release request fulfilled) := by
  obtain ⟨s, hs⟩ := h
  have hholder : request ∈ s.holders := s.place_eq_slot_iff.mp ((hs.place request).symm.trans hi)
  unfold RequestGate.release RequestScheduler.releaseSlot
  cases hwaiters : gate.scheduler.waiters with
  | nil =>
    have hnone : s.waiters = [] := hs.waiters.symm.trans hwaiters
    refine ⟨s.vacate hholder hnone, ?_, hnone.symm, hs.asked, hs.granted,
      congrArg (· ++ [request]) hs.released, fun i => ?_⟩
    · change max 0 (gate.scheduler.active - 1) = (s.holders.erase request).length
      rw [Nat.zero_max, hs.active, length_erase_of_mem hholder]
    · rw [s.place_vacate, ← hs.place]
      exact place_setPhase gate request _ i
  | cons next waiters =>
    have hnext : s.waiters = next :: waiters := hs.waiters.symm.trans hwaiters
    refine ⟨s.handOver hholder hnext, ?_, rfl, hs.asked, congrArg (· ++ [next]) hs.granted,
      congrArg (· ++ [request]) hs.released, fun i => ?_⟩
    · change gate.scheduler.active = (s.holders.erase request ++ [next]).length
      rw [hs.active, length_append, length_erase_of_mem hholder, length_singleton,
        Nat.sub_add_cancel (length_pos_of_mem hholder)]
    · rw [s.place_handOver, ← hs.place]
      exact (place_setPhase _ next .acquired i).trans (by rw [place_setPhase]; rfl)

/-- A pause leaves the slots. -/
theorem IsSemaphore.pauseFor (delayMs : Option ℚ) :
    IsSemaphore { gate with scheduler := gate.scheduler.pauseFor gate.now delayMs } := by
  obtain ⟨s, hs⟩ := h
  obtain ⟨pauseEnd, -, heq⟩ := gate.scheduler.exists_pauseFor_eq gate.now delayMs
  rw [heq]
  exact ⟨s, hs.active, hs.waiters, hs.asked, hs.granted, hs.released, hs.place⟩

/-- **Every step is one of the semaphore**, or none. -/
theorem isSemaphore_step (event : Event ι) :
    IsSemaphore (step gate event) := by
  cases event with
  | run request =>
    rw [step]
    split
    · rename_i hphase
      exact h.waitOutPause (by rw [hphase]; rfl)
    · exact h
  | wake request =>
    rw [step]
    split
    · rename_i hphase
      exact h.waitOutPause (by rw [hphase])
    · exact h
  | resume request =>
    rw [step]
    split
    · rename_i hphase
      exact h.acquire (by rw [hphase]; rfl)
    · rename_i hphase
      exact h.waitOutPause (by rw [hphase]; rfl)
    · rename_i hphase
      have hplace : GatePhase.running.place = (gate.phase request).place := by
        rw [hphase]
        rfl
      obtain ⟨s, hs⟩ := h.setPhase hplace
      exact ⟨s, hs.active, hs.waiters, hs.asked, hs.granted, hs.released, hs.place⟩
    · rename_i hphase
      exact h.release (by rw [hphase]; rfl)
    · exact h
  | settle request fulfilled =>
    rw [step]
    split
    · rename_i hphase
      exact h.setPhase (by rw [hphase]; rfl)
    · exact h
  | pauseFor delayMs => exact h.pauseFor delayMs
  | pauseForRateLimit retryAfterMs => exact h.pauseFor _
  | advance time =>
    obtain ⟨s, hs⟩ := h
    exact ⟨s, hs.active, hs.waiters, hs.asked, hs.granted, hs.released, hs.place⟩

end

/-! ## Starts -/

/-- No request that has found no pause is about to start in one. -/
structure Unhindered (gate : RequestGate ι) : Prop where
  cleared : ∀ i, gate.phase i = .cleared true → gate.scheduler.isPaused gate.now = false
  starts : ∀ s ∈ gate.starts, s.isPaused = false

/-- **No pause begins between a request's last look at it and its start.** -/
def PausesApart (gate : RequestGate ι) (event : Event ι) : Prop :=
  match event with
  | .pauseFor _ | .pauseForRateLimit _ => (step gate event).scheduler.isPaused gate.now = true →
    ∀ i, gate.phase i ≠ .cleared true
  | _ => True

theorem phase_setPhase (gate : RequestGate ι) (request : ι) (phase : GatePhase) (i : ι) :
    (gate.setPhase request phase).phase i = if i = request then phase else gate.phase i :=
  Function.update_apply gate.phase request phase i

section

variable (h : Unhindered gate)

include h

theorem Unhindered.setPhase {phase : GatePhase}
    (hphase : phase = .cleared true → gate.scheduler.isPaused gate.now = false) :
    Unhindered (gate.setPhase request phase) := by
  refine ⟨fun i hi => ?_, h.starts⟩
  rw [phase_setPhase] at hi
  split_ifs at hi
  · exact hphase hi
  · exact h.cleared i hi

theorem Unhindered.waitOutPause {hasSlot : Bool} :
    Unhindered (gate.waitOutPause request hasSlot) := by
  refine h.setPhase fun hcleared => decide_eq_false (not_lt.mpr ?_)
  split_ifs at hcleared with hremaining
  exact sub_nonpos.mp hremaining

theorem Unhindered.acquire : Unhindered (gate.acquire request) := by
  unfold RequestGate.acquire RequestScheduler.acquireSlot
  split_ifs
  · have hphase : Unhindered (gate.setPhase request .acquired) :=
      h.setPhase fun hcleared => nomatch hcleared
    exact ⟨hphase.cleared, hphase.starts⟩
  · have hphase : Unhindered (gate.setPhase request .queued) :=
      h.setPhase fun hcleared => nomatch hcleared
    exact ⟨hphase.cleared, hphase.starts⟩

theorem Unhindered.release {fulfilled : Bool} :
    Unhindered (gate.release request fulfilled) := by
  have hreturned : Unhindered (gate.setPhase request (.returned fulfilled)) :=
    h.setPhase fun hcleared => nomatch hcleared
  unfold RequestGate.release RequestScheduler.releaseSlot
  cases gate.scheduler.waiters with
  | nil => exact ⟨hreturned.cleared, hreturned.starts⟩
  | cons next waiters =>
    have hnext : Unhindered
        ((gate.setPhase request (.returned fulfilled)).setPhase next .acquired) :=
      hreturned.setPhase fun hcleared => nomatch hcleared
    exact ⟨hnext.cleared, hnext.starts⟩

/-- A request that has found no pause starts in none. -/
theorem Unhindered.start (hphase : gate.phase request = .cleared true) :
    Unhindered (gate.start request) := by
  have hrunning : Unhindered (gate.setPhase request .running) :=
    h.setPhase fun hcleared => nomatch hcleared
  refine ⟨hrunning.cleared, fun s hs => ?_⟩
  rcases mem_append.mp hs with hbefore | hlast
  · exact h.starts s hbefore
  · rw [mem_singleton.mp hlast]
    exact h.cleared request hphase

end

omit [DecidableEq ι] in
theorem Unhindered.pauseFor (h : Unhindered gate) {delayMs : Option ℚ}
    (hapart : (gate.scheduler.pauseFor gate.now delayMs).isPaused gate.now = true →
      ∀ i, gate.phase i ≠ .cleared true) :
    Unhindered { gate with scheduler := gate.scheduler.pauseFor gate.now delayMs } :=
  ⟨fun i hi => Bool.eq_false_iff.mpr fun hpaused => hapart hpaused i hi, h.starts⟩

theorem unhindered_step (h : Unhindered gate) {event : Event ι} (hapart : PausesApart gate event) :
    Unhindered (step gate event) := by
  cases event with
  | run request | wake request =>
    rw [step]
    split
    · exact h.waitOutPause
    · exact h
  | resume request =>
    rw [step]
    split
    · exact h.acquire
    · exact h.waitOutPause
    · rename_i hphase
      exact h.start hphase
    · exact h.release
    · exact h
  | settle request fulfilled =>
    rw [step]
    split
    · exact h.setPhase fun hcleared => nomatch hcleared
    · exact h
  | pauseFor delayMs => exact h.pauseFor hapart
  | pauseForRateLimit retryAfterMs => exact h.pauseFor hapart
  | advance time =>
    refine ⟨fun i hi => decide_eq_false (not_lt.mpr ?_), h.starts⟩
    exact (not_lt.mp (of_decide_eq_false (h.cleared i hi))).trans (le_max_left _ _)

/-! ## Runs -/

/-- **A gate in order**: the tasks between acquisition and release are counted and not too many,
nobody waits while a slot is free, slots are given in the order of asking and released once, and no
task started in a pause. -/
structure Orderly (gate : RequestGate ι) : Prop where
  active : ∃ holders : List ι, holders.Nodup ∧ (∀ i, i ∈ holders ↔ (gate.phase i).place = .slot)
    ∧ holders.length = gate.scheduler.activeCount
  active_le : gate.scheduler.activeCount ≤ gate.scheduler.maxConcurrent
  full : gate.scheduler.queuedCount ≠ 0 → gate.scheduler.activeCount = gate.scheduler.maxConcurrent
  inOrder : gate.asked.Nodup ∧ gate.asked = gate.granted ++ gate.scheduler.waiters
  released : gate.released.Nodup
    ∧ ∀ i, i ∈ gate.released ↔ ∃ fulfilled, gate.phase i = .returned fulfilled
  starts : ∀ s ∈ gate.starts, s.isPaused = false

theorem GatePhase.place_eq_gone_iff (phase : GatePhase) :
    phase.place = .gone ↔ ∃ fulfilled, phase = .returned fulfilled := by
  cases phase with
  | returned fulfilled => exact ⟨fun _ => ⟨fulfilled, rfl⟩, fun _ => rfl⟩
  | sleeping hasSlot | cleared hasSlot => cases hasSlot <;> simp [GatePhase.place]
  | _ => simp [GatePhase.place]

theorem IsSemaphore.orderly (h : IsSemaphore gate)
    (hstarts : ∀ s ∈ gate.starts, s.isPaused = false) : Orderly gate := by
  obtain ⟨s, hs⟩ := h
  have hnodup : (s.released ++ s.holders).Nodup :=
    s.perm.nodup_iff.mp (nodup_append.mp (s.asked_eq ▸ s.nodup)).1
  obtain ⟨hreleased, hholders, -⟩ := nodup_append.mp hnodup
  refine ⟨⟨s.holders, hholders, fun i => ?_, hs.active.symm⟩, ?_, fun hqueued => ?_,
    ⟨hs.asked ▸ s.nodup, ?_⟩, ⟨hs.released ▸ hreleased, fun i => ?_⟩, hstarts⟩
  · rw [hs.place, s.place_eq_slot_iff]
  · exact hs.active.trans_le s.length_le
  · refine hs.active.trans (s.full fun hnil => hqueued ?_)
    rw [RequestScheduler.queuedCount, hs.waiters, hnil, length_nil]
  · rw [hs.asked, hs.granted, hs.waiters, s.asked_eq]
  · rw [hs.released, ← s.place_eq_gone_iff, ← hs.place, GatePhase.place_eq_gone_iff]

variable (maxConcurrent : Option ℕ) (maxPauseMs : Option ℚ) (now : ℚ) (events : List (Event ι))

/-- **In every run the gate is a semaphore.** -/
theorem isSemaphore_run :
    IsSemaphore (Run.run step (initial (.new ι maxConcurrent maxPauseMs) now) events) := by
  induction events using List.reverseRecOn with
  | nil => exact ⟨.empty ι _, rfl, rfl, rfl, rfl, rfl, fun _ => rfl⟩
  | append_singleton events event ih =>
    rw [Run.run_append]
    exact isSemaphore_step ih event

/-- **Slots are in order in every run**, whatever pauses begin when: all that may be wrong is that a
task starts in a pause. -/
theorem slotsInOrder_run : Orderly
    { Run.run step (initial (.new ι maxConcurrent maxPauseMs) now) events with starts := [] } := by
  obtain ⟨s, hs⟩ := isSemaphore_run maxConcurrent maxPauseMs now events
  exact IsSemaphore.orderly ⟨s, hs.active, hs.waiters, hs.asked, hs.granted, hs.released, hs.place⟩
    fun _ h => nomatch h

/-- **In every run without a pause between a request's last look at it and its start, the gate is in
order.** -/
theorem orderly_run (hapart : Run.AllSteps step PausesApart
      (initial (.new ι maxConcurrent maxPauseMs) now) events) :
    Orderly (Run.run step (initial (.new ι maxConcurrent maxPauseMs) now) events) := by
  have hinitial : Unhindered (initial (.new ι maxConcurrent maxPauseMs) now) :=
    ⟨fun _ h => (nomatch h), fun _ h => absurd h not_mem_nil⟩
  have hunhindered : Unhindered
      (Run.run step (initial (.new ι maxConcurrent maxPauseMs) now) events) :=
    Run.induction hinitial (fun _ _ h hapart => unhindered_step h hapart) hapart
  exact (isSemaphore_run maxConcurrent maxPauseMs now events).orderly hunhindered.starts

/-- A rate limit that comes in while a request is about to start. -/
def pausedAtStart : List (Event ℕ) :=
  [.run 0, .resume 0, .resume 0, .pauseForRateLimit none, .resume 0]

/-- **A task starts in a pause.** -/
theorem not_orderly_pausedAtStart : ¬ Orderly
    (Run.run step (initial (.new ℕ none none) 5) pausedAtStart) := fun h =>
  absurd (h.starts ⟨0, true⟩ (by decide +kernel)) (by decide)

/-- Two requests share one slot, and a third waits.  The rate limit comes in before the first one's
last look at it and is over when the slot is handed on. -/
def heldBack : List (Event (Fin 3)) :=
  [.run 0, .resume 0, .run 1, .resume 1, .run 2, .resume 2, .pauseForRateLimit none, .resume 0,
    .advance 1005, .wake 0, .resume 0, .settle 0 true, .resume 0, .resume 1, .resume 1]

theorem orderly_run_heldBack :
    Orderly (Run.run step (initial (.new (Fin 3) (some 1) none) 5) heldBack) := by
  refine orderly_run (some 1) none 5 heldBack ⟨trivial, trivial, trivial, trivial, trivial, trivial,
    fun _ request => ?_, trivial, trivial, trivial, trivial, trivial, trivial, trivial, trivial,
    trivial⟩
  revert request
  decide +kernel

end RequestGate

end MindooDB
