import Mathlib
import RealScript.Pool

/-! # Calls that share a pool

Any number of calls run their tasks on one pool at the same time, and others close it. A call of its
own takes a permit for each task before it starts it, and waits for its turn if there is none. A
call that a task makes runs its tasks one after the other in the place of that task. What tasks do
is left open. All that is atomic is one step: a look at the flag of the pool, a move of the
semaphore, a step of a task.
-/

namespace RealScript.Pool

variable {ε ν κ : Type}

inductive Move (ε ν κ : Type) where
  | run (c : κ)
  | scatter (count : Nat) (task : Nat → κ) (next : Except ε (List ν) → κ)
  | ret (r : Except ε ν)

/-- The moves of tasks, which may see that their context is cancelled, and the errors of the pool
itself. -/
structure Tasks (ε ν κ : Type) where
  moves : (cancelled : Bool) → κ → Move ε ν κ → Prop
  closed : ε
  interrupted : ε

def failure? : Except ε ν → Option ε
  | .ok _ => none
  | .error e => some e

/-- The tasks of a call that were started, and what those that are done have returned. -/
structure Tally (ε ν : Type) where
  started : List Nat := []
  finished : List (Nat × Except ε ν) := []

namespace Tally

def start (t : Tally ε ν) : Tally ε ν := { t with started := t.started.length :: t.started }

def finish (t : Tally ε ν) (index : Nat) (r : Except ε ν) : Tally ε ν :=
  { t with finished := (index, r) :: t.finished }

def finishLast (t : Tally ε ν) (r : Except ε ν) : Tally ε ν := t.finish (t.started.length - 1) r

def values (t : Tally ε ν) (n : Nat) : List ν :=
  (List.range n).filterMap fun i => (t.finished.lookup i).bind Except.toOption

structure Complete (n : Nat) (t : Tally ε ν) : Prop where
  started : t.started.Perm (List.range n)
  finished : (t.finished.map Prod.fst).Perm (List.range n)
  succeeded : ∀ x ∈ t.finished, ∃ v, x.2 = .ok v

end Tally

structure Return (ε ν : Type) where
  count : Nat
  tally : Tally ε ν
  error : Option ε

inductive Effect (ε ν : Type) where
  | quiet
  /-- A task starts. -/
  | start
  /-- A ticket for the queue of the semaphore is drawn. -/
  | ask
  | grant (weight ticket : Nat)
  | release (weight : Nat)
  | close
  | returns (r : Return ε ν)

structure Nested (ε ν κ : Type) where
  count : Nat
  task : Nat → κ
  next : Except ε (List ν) → κ
  tally : Tally ε ν := {}

inductive Control (ε ν κ : Type) where
  | code (c : κ)
  /-- At a call, before the look at the flag of the pool. -/
  | enter (n : Nested ε ν κ)
  /-- Between the tasks of a call. -/
  | loop (n : Nested ε ν κ)

/-- The steps of a task on its own. Behind the place where it stands are the calls that it is in the
midst of, the innermost one first. -/
inductive Runs (T : Tasks ε ν κ) (closed cancelled : Bool) :
    Control ε ν κ → List (Nested ε ν κ) → Effect ε ν → Control ε ν κ → List
    (Nested ε ν κ) → Prop where
  | run {c c' : κ} {ns : List (Nested ε ν κ)} : T.moves cancelled c (.run c') →
      Runs T closed cancelled (.code c) ns .quiet (.code c') ns
  | nest {c : κ} {ns : List (Nested ε ν κ)} {count : Nat} {task : Nat → κ}
      {next : Except ε (List ν) → κ} : T.moves cancelled c (.scatter count task next) →
      Runs T closed cancelled (.code c) ns .quiet (.enter { count, task, next }) ns
  | refuse {n : Nested ε ν κ} {ns : List (Nested ε ν κ)} : closed = true →
      Runs T closed cancelled (.enter n) ns (.returns ⟨n.count, n.tally, some T.closed⟩)
        (.code (n.next (.error T.closed))) ns
  | letIn {n : Nested ε ν κ} {ns : List (Nested ε ν κ)} : closed = false →
      Runs T closed cancelled (.enter n) ns .quiet (.loop n) ns
  | complete {n : Nested ε ν κ} {ns : List (Nested ε ν κ)} : n.tally.started.length = n.count →
      Runs T closed cancelled (.loop n) ns (.returns ⟨n.count, n.tally, none⟩)
        (.code (n.next (.ok (n.tally.values n.count)))) ns
  | interrupt {n : Nested ε ν κ} {ns : List (Nested ε ν κ)} : n.tally.started.length < n.count →
      cancelled = true →
      Runs T closed cancelled (.loop n) ns (.returns ⟨n.count, n.tally, some T.interrupted⟩)
        (.code (n.next (.error T.interrupted))) ns
  | start {n : Nested ε ν κ} {ns : List (Nested ε ν κ)} : n.tally.started.length < n.count →
      cancelled = false →
      Runs T closed cancelled (.loop n) ns .start (.code (n.task n.tally.started.length))
        ({ n with tally := n.tally.start } :: ns)
  | done {c : κ} {n : Nested ε ν κ} {ns : List (Nested ε ν κ)} {v : ν} :
      T.moves cancelled c (.ret (.ok v)) →
      Runs T closed cancelled (.code c) (n :: ns) .quiet
        (.loop { n with tally := n.tally.finishLast (.ok v) }) ns
  | fail {c : κ} {n : Nested ε ν κ} {ns : List (Nested ε ν κ)} {e : ε} :
      T.moves cancelled c (.ret (.error e)) →
      Runs T closed cancelled (.code c) (n :: ns)
        (.returns ⟨n.count, n.tally.finishLast (.error e), some e⟩) (.code (n.next (.error e))) ns

inductive Thread (ε ν κ : Type) where
  | running (index : Nat) (control : Control ε ν κ) (calls : List (Nested ε ν κ))
  /-- The task has returned and still has its permit. -/
  | returned (index : Nat) (r : Except ε ν)
  /-- The permit is back, but the call has not taken notice yet. -/
  | released (index : Nat) (r : Except ε ν)

def Thread.isRunning : Thread ε ν κ → Bool
  | .running .. => true
  | _ => false

/-- Where a call stands. From `holding` to `refused` it has a permit for its next task. -/
inductive Phase (ε : Type) where
  | entering
  | asking
  | waiting (ticket : Nat)
  | holding
  /-- The pool was open at the second look. -/
  | cleared
  /-- The pool was closed at the second look. -/
  | refused
  /-- No more tasks are started, and those that run are waited for. -/
  | leaving (stop : Option ε)
  | returned (error : Option ε)

def Phase.ticket? : Phase ε → Option Nat
  | .waiting t => some t
  | _ => none

structure Group (ε ν κ : Type) where
  count : Nat
  task : Nat → κ
  /-- Whether the context of the caller is cancelled. -/
  cancelled : Bool := false
  phase : Phase ε := .entering
  threads : List (Thread ε ν κ) := []
  /-- The first error that was recorded; the context of the tasks is cancelled together with it. -/
  error : Option ε := none
  tally : Tally ε ν := {}

namespace Group

def interrupted (g : Group ε ν κ) : Bool := g.cancelled || g.error.isSome

inductive Step (T : Tasks ε ν κ) (closed : Bool) (ticket : Nat) (g : Group ε ν κ) :
    Effect ε ν → Group ε ν κ → Prop where
  | refuse : g.phase = .entering → closed = true →
      Step T closed ticket g (.returns ⟨g.count, g.tally, some T.closed⟩)
        { g with phase := .returned (some T.closed) }
  | letIn : g.phase = .entering → closed = false → Step T closed ticket g .quiet
    { g with phase := .asking }
  | last : g.phase = .asking → g.tally.started.length = g.count →
      Step T closed ticket g .quiet { g with phase := .leaving none }
  | ask : g.phase = .asking → g.tally.started.length < g.count →
      Step T closed ticket g .ask { g with phase := .waiting ticket }
  | interrupt : g.phase = .asking → g.tally.started.length < g.count → g.interrupted = true →
      Step T closed ticket g .quiet { g with phase := .leaving (some T.interrupted) }
  | abandon {t : Nat} : g.phase = .waiting t → g.interrupted = true →
      Step T closed ticket g .quiet { g with phase := .leaving (some T.interrupted) }
  | grant {t : Nat} : g.phase = .waiting t → Step T closed ticket g (.grant 1 t)
    { g with phase := .holding }
  | putBack : g.phase = .holding → g.interrupted = true →
      Step T closed ticket g (.release 1) { g with phase := .leaving (some T.interrupted) }
  | seeOpen : g.phase = .holding → closed = false → Step T closed ticket g .quiet
    { g with phase := .cleared }
  | seeClosed : g.phase = .holding → closed = true →
      Step T closed ticket g .quiet { g with phase := .refused }
  | giveUp : g.phase = .refused →
      Step T closed ticket g (.release 1) { g with phase := .leaving (some T.closed) }
  | start : g.phase = .cleared →
      Step T closed ticket g .start { g with
        phase := .asking, tally := g.tally.start
        threads := .running g.tally.started.length (.code (g.task g.tally.started.length)) [] ::
          g.threads }
  | run {pre post : List (Thread ε ν κ)} {i : Nat} {c c' : Control ε ν κ}
    {ns ns' : List (Nested ε ν κ)} {e : Effect ε ν} : g.threads = pre ++ .running i c ns :: post →
      Runs T closed g.interrupted c ns e c' ns' →
      Step T closed ticket g e { g with threads := pre ++ .running i c' ns' :: post }
  | ret {pre post : List (Thread ε ν κ)} {i : Nat} {c : κ} {r : Except ε ν} :
      g.threads = pre ++ .running i (.code c) [] :: post → T.moves g.interrupted c (.ret r) →
      Step T closed ticket g .quiet
        { g with threads := pre ++ .returned i r :: post, tally := g.tally.finish i r }
  | release {pre post : List (Thread ε ν κ)} {i : Nat} {r : Except ε ν} :
      g.threads = pre ++ .returned i r :: post →
      Step T closed ticket g (.release 1) { g with threads := pre ++ .released i r :: post }
  | record {pre post : List (Thread ε ν κ)} {i : Nat} {r : Except ε ν} :
      g.threads = pre ++ .released i r :: post →
      Step T closed ticket g .quiet
        { g with threads := pre ++ post, error := g.error.or (failure? r) }
  | leave {stop : Option ε} : g.phase = .leaving stop → g.threads = [] →
      Step T closed ticket g (.returns ⟨g.count, g.tally, g.error.or stop⟩)
        { g with phase := .returned (g.error.or stop) }

end Group

inductive Closer where
  | calling
  /-- It has set the flag and is about to ask for all permits. -/
  | asking
  | waiting (ticket : Nat)
  | holding
  /-- `first` tells whether it was this call that set the flag. -/
  | returned (first : Bool)
  deriving DecidableEq

def Closer.ticket? : Closer → Option Nat
  | .waiting t => some t
  | _ => none

inductive Closer.Step (size : Nat) (closed : Bool) (ticket : Nat) :
    Closer → Effect ε ν → Closer → Prop where
  | set : closed = false → Step size closed ticket .calling .close .asking
  | late : closed = true → Step size closed ticket .calling .quiet (.returned false)
  | ask : Step size closed ticket .asking .ask (.waiting ticket)
  | grant {t : Nat} : Step size closed ticket (.waiting t) (.grant size t) .holding
  | release : Step size closed ticket .holding (.release size) (.returned true)

structure System (ε ν κ : Type) where
  pool : Pool
  /-- The permits that nobody has. -/
  free : Nat
  /-- The next ticket for the queue of the semaphore. -/
  ticket : Nat := 0
  groups : List (Group ε ν κ) := []
  closers : List Closer := []
  /-- The calls that have returned, those of tasks included. -/
  returns : List (Return ε ν) := []

namespace System

def idle (p : Pool) : System ε ν κ := { pool := p, free := p.size }

def waiting (s : System ε ν κ) : List Nat :=
  (s.groups.filterMap fun g => g.phase.ticket?) ++ s.closers.filterMap Closer.ticket?

/-- Permits are granted as long as there are enough of them, to whoever has waited longest. -/
def Admits (s : System ε ν κ) : Effect ε ν → Prop
  | .grant weight ticket => weight ≤ s.free ∧ ∀ t ∈ s.waiting, ticket ≤ t
  | _ => True

def apply (s : System ε ν κ) : Effect ε ν → System ε ν κ
  | .quiet | .start => s
  | .ask => { s with ticket := s.ticket + 1 }
  | .grant weight _ => { s with free := s.free - weight }
  | .release weight => { s with free := s.free + weight }
  | .close => { s with pool := s.pool.close }
  | .returns r => { s with returns := r :: s.returns }

inductive Step (T : Tasks ε ν κ) (s : System ε ν κ) : Effect ε ν → System ε ν κ → Prop where
  | group {pre post : List (Group ε ν κ)} {g g' : Group ε ν κ} {e : Effect ε ν} :
      s.groups = pre ++ g :: post → g.Step T s.pool.closed s.ticket e g' → s.Admits e →
      Step T s e { s.apply e with groups := pre ++ g' :: post }
  | closer {pre post : List Closer} {c c' : Closer} {e : Effect ε ν} :
      s.closers = pre ++ c :: post → c.Step s.pool.size s.pool.closed s.ticket e c' → s.Admits e →
      Step T s e { s.apply e with closers := pre ++ c' :: post }

inductive Arrives (s : System ε ν κ) : System ε ν κ → Prop where
  | scatter (count : Nat) (task : Nat → κ) :
    Arrives s { s with groups := { count, task } :: s.groups }
  | close : Arrives s { s with closers := .calling :: s.closers }
  | cancel {pre post : List (Group ε ν κ)} {g : Group ε ν κ} : s.groups = pre ++ g :: post →
      Arrives s { s with groups := pre ++ { g with cancelled := true } :: post }

def Next (T : Tasks ε ν κ) (s s' : System ε ν κ) : Prop := (∃ e, s.Step T e s') ∨ s.Arrives s'

def Reachable (T : Tasks ε ν κ) (p : Pool) (s : System ε ν κ) : Prop :=
  Relation.ReflTransGen (Next T) (idle p) s

def running (s : System ε ν κ) : List (Thread ε ν κ) :=
  s.groups.flatMap fun g => g.threads.filter Thread.isRunning

def Unfinished (s : System ε ν κ) : Prop :=
  (∃ g ∈ s.groups, ∀ e, g.phase ≠ .returned e) ∨ ∃ c ∈ s.closers, ∀ first, c ≠ .returned first

def Lively (T : Tasks ε ν κ) (s : System ε ν κ) : Prop :=
  ∀ g ∈ s.groups, ∀ i c ns, .running i (.code c) ns ∈ g.threads → ∃ m, T.moves g.interrupted c m

end System

end RealScript.Pool
