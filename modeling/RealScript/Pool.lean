import RealScript.Machine.World

/-! # Tasks on a worker pool

A pool runs one task for each index. The tasks of a call are independent of each other, so the
answer of a call is that of running them one after the other; a call from inside a task does just
that.
-/

namespace RealScript

inductive PoolError where
  | closed
  | interrupted (i : Interrupt)
  | task (text : String)
  deriving DecidableEq, Repr

def PoolError.message : PoolError → String
  | .closed => RunCause.poolClosed.message
  | .interrupted i => i.message
  | .task text => text

namespace Pool

def close (p : Pool) : Pool := { p with closed := true }

/-- Runs the tasks from `first` on until one fails or the context is done. -/
def runTasks {σ : Type} (ctx : Context) (task : Nat → σ → Except PoolError Unit × σ) :
    (count first : Nat) → σ → Except PoolError Unit × σ
  | 0, _, s => (.ok (), s)
  | count + 1, first, s =>
    match ctx.interrupt? 0 with
    | some i => (.error (.interrupted i), s)
    | none =>
      match task first s with
      | (.error e, s) => (.error e, s)
      | (.ok (), s) => runTasks ctx task count (first + 1) s

def scatter {σ : Type} (p : Pool) (ctx : Context) (n : Nat)
    (task : Nat → σ → Except PoolError Unit × σ) (s : σ) : Except PoolError Unit × σ :=
  if p.closed then (.error .closed, s) else runTasks ctx task n 0 s

end Pool

end RealScript
