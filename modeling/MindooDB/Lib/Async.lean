import Mathlib

/-!
# Lib/Async — programs that await

An asynchronous function runs in pieces: what stands between two awaits happens at once, and at an
await other functions may run.  `Async ε ω η α` is such a function over a world `ω`, as the tree of
its **atomic steps**; `ε` is what the environment decides for a step (whether a write fails, in which
order a directory is listed) and `η` the event by which a step is known.  `alone` runs one to its
end, with nothing in between.
-/

/-- **A program**: it has returned, it has thrown, or it waits until `ready` and takes a step. -/
inductive Async (ε ω η α : Type) where
  | done (a : α)
  | failed
  | step (ready : ω → Bool) (effect : ε → ω → ω × η) (next : ε → ω → Async ε ω η α)

namespace Async

variable {ε ω η α β : Type}

protected def bind : Async ε ω η α → (α → Async ε ω η β) → Async ε ω η β
  | done a, f => f a
  | failed, _ => failed
  | step ready effect next, f => step ready effect fun e w => (next e w).bind f

instance : Monad (Async ε ω η) where
  pure := done
  bind := Async.bind

@[simp] theorem pure_eq (a : α) : (pure a : Async ε ω η α) = done a := rfl

@[simp] theorem done_bind (a : α) (f : α → Async ε ω η β) : done a >>= f = f a := rfl

@[simp] theorem failed_bind (f : α → Async ε ω η β) : (failed : Async ε ω η α) >>= f = failed := rfl

/-- One step, and its result. -/
def atomic (effect : ε → ω → ω × η) (result : ε → ω → α) : Async ε ω η α :=
  step (fun _ => true) effect fun e w => done (result e w)

/-- One step, which throws when it has no result. -/
def orThrow (effect : ε → ω → ω × η) (result : ε → ω → Option α) : Async ε ω η α :=
  step (fun _ => true) effect fun e w => (result e w).elim failed done

/-- Run a program to its end, with nothing in between; `none` when it throws or would wait. -/
def alone (env : ε) : Async ε ω η α → ω → Option (α × ω)
  | done a, w => some (a, w)
  | failed, _ => none
  | step ready effect next, w =>
    if ready w then alone env (next env w) (effect env w).1 else none

@[simp] theorem alone_done (env : ε) (a : α) (w : ω) :
    alone env (done a : Async ε ω η α) w = some (a, w) := rfl

theorem alone_bind (env : ε) (p : Async ε ω η α) (f : α → Async ε ω η β) (w : ω) :
    alone env (p >>= f) w = (alone env p w).bind fun r => alone env (f r.1) r.2 := by
  induction p generalizing w with
  | done a => rfl
  | failed => rfl
  | step ready effect next ih =>
    show (if ready w then alone env (next env w >>= f) (effect env w).1 else none) = _
    rw [alone]
    split
    · exact ih env w _
    · rfl

end Async
