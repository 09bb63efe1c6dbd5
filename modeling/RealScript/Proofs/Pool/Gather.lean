import RealScript.Builtin
import RealScript.Proofs.Machine.Likeness
import RealScript.Proofs.Pool.Progress
import RealScript.Proofs.Stateful

/-! # Results in order

A call of a pool hands a function to tasks, one for each element of a collection. If what the
function gives depends on the element only, so does what the call gives: the results stand in the
order of the elements, whatever the order in which tasks run and end. If the function fails, the
error is one of its own, since the context of the other tasks is cancelled only when an error has
been recorded.
-/

namespace RealScript.Pool

theorem filterMap_range_getElem? {α : Type} (xs : List α) :
    (List.range xs.length).filterMap (xs[·]?) = xs := by
  induction xs with
  | nil => rfl
  | cons x xs ih =>
    rw [List.length_cons, List.range_succ_eq_map, List.filterMap_cons, List.filterMap_map]
    exact congrArg (x :: ·) ih

/-- Tasks that call a function on an element. Once their context is cancelled they may also end in
one of the errors `late`. -/
def callbacks (f : Float → Except Fault Value) (late : Fault → Prop) (name : String) :
    Tasks Fault Value Float where
  moves cancelled x m := m = .ret (f x) ∨ cancelled = true ∧ ∃ e, late e ∧ m = .ret (.error e)
  closed := .runtime ⟨name, .poolClosed⟩
  interrupted := .runtime ⟨name, .interrupted .cancelled⟩

def Group.ofElements (xs : List Float) : Group Fault Value Float :=
  { count := xs.length, task := fun i => xs.getD i 0 }

def Thread.Serves (xs : List Float) (finished : List (Nat × Except Fault Value)) :
    Thread Fault Value Float → Prop
  | .running i c ns => c = .code (xs.getD i 0) ∧ ns = []
  | .returned i r | .released i r => (i, r) ∈ finished

theorem Thread.Serves.cons {xs : List Float} {finished : List (Nat × Except Fault Value)}
    {t : Thread Fault Value Float} (h : t.Serves xs finished) (x : Nat × Except Fault Value) :
    t.Serves xs (x :: finished) := by
  cases t with
  | running => exact h
  | returned | released => exact List.mem_cons_of_mem x h

structure Group.Serves (f : Float → Except Fault Value) (xs : List Float)
    (g : Group Fault Value Float) : Prop where
  count : g.count = xs.length
  task : ∀ i, g.task i = xs.getD i 0
  live : g.cancelled = false
  threads : ∀ t ∈ g.threads, t.Serves xs g.tally.finished
  results : g.error = none → ∀ x ∈ g.tally.finished, x.2 = f (xs.getD x.1 0)
  error : ∀ e, g.error = some e → ∃ x ∈ xs, f x = .error e
  refused : g.phase ≠ .refused
  leaving : ∀ e, g.phase = .leaving (some e) → g.error ≠ none
  returned : ∀ r, g.phase = .returned r →
    g.error = r ∧ g.threads = [] ∧ (r = none → g.tally.Complete g.count)

namespace Group.Serves

variable {f : Float → Except Fault Value} {late : Fault → Prop} {name : String} {xs : List Float}
  {g g' : Group Fault Value Float} {ticket : Nat} {e : Effect Fault Value}

section

variable (h : g.Serves f xs)

include h

theorem move {phase : Phase Fault} (hr : phase ≠ .refused)
    (hl : ∀ e, phase = .leaving (some e) → g.error ≠ none)
    (hd : ∀ r, phase = .returned r →
      g.error = r ∧ g.threads = [] ∧ (r = none → g.tally.Complete g.count)) :
    Group.Serves f xs { g with phase := phase } :=
  ⟨h.count, h.task, h.live, h.threads, h.results, h.error, hr, hl, hd⟩

theorem error_of_interrupted (hi : g.interrupted = true) : g.error ≠ none := by
  intro he
  simp [Group.interrupted, h.live, he] at hi

theorem mem_of_finished (hk : g.Kept) {i : Nat} {r : Except Fault Value}
    (hi : (i, r) ∈ g.tally.finished) : xs.getD i 0 ∈ xs := by
  have hstarted : i ∈ g.tally.started :=
    hk.account.mem_iff.mp (List.mem_append_left _ (List.mem_map_of_mem hi))
  have hlt : i < xs.length := by
    have hr := List.mem_range.mp (hk.started.mem_iff.mp hstarted)
    have hb := hk.bound
    rw [h.count] at hb
    omega
  rw [List.getD_eq_getElem?_getD, List.getElem?_eq_getElem hlt]
  exact List.getElem_mem hlt

theorem not_returned {pre post : List (Thread Fault Value Float)}
    {t : Thread Fault Value Float} (ht : g.threads = pre ++ t :: post) (r : Option Fault) :
    g.phase ≠ .returned r := by
  intro hp
  have := (h.returned r hp).2.1
  simp [ht] at this

theorem step (hk : g.Kept) (hs : g.Step (callbacks f late name) false ticket e g') :
    g'.Serves f xs := by
  cases hs with
  | refuse _ hc | seeClosed _ hc => cases hc
  | giveUp hp => exact absurd hp h.refused
  | letIn | ask | grant | seeOpen | last => exact h.move nofun nofun nofun
  | interrupt _ _ hi => exact h.move nofun (fun _ _ => h.error_of_interrupted hi) nofun
  | abandon _ hi | putBack _ hi => exact h.move nofun (fun _ _ => h.error_of_interrupted hi) nofun
  | start =>
    refine ⟨h.count, h.task, h.live, ?_, h.results, h.error, nofun, nofun, nofun⟩
    exact List.forall_mem_cons.mpr ⟨⟨by rw [h.task], rfl⟩, h.threads⟩
  | @run pre post i c c' ns ns' _ ht hr =>
    -- Such tasks do nothing but return.
    obtain ⟨rfl, rfl⟩ : c = .code (xs.getD i 0) ∧ ns = [] := h.threads (.running i c ns)
      (by simp [ht])
    cases hr with
    | run hm | nest hm => rcases hm with hm | ⟨-, e, -, hm⟩ <;> cases hm
  | @ret pre post i c r ht hm =>
    obtain ⟨hc, -⟩ : Control.code c = .code (xs.getD i 0) ∧ [] = [] :=
      h.threads (.running i (.code c) []) (by simp [ht])
    obtain rfl : c = xs.getD i 0 := Control.code.inj hc
    refine ⟨h.count, h.task, h.live, ?_, fun he => ?_, h.error, h.refused, h.leaving,
      fun q hp => absurd hp (h.not_returned ht q)⟩
    · exact System.forall_mem_replace ht (fun t hmem => (h.threads t hmem).cons _)
        List.mem_cons_self
    · refine List.forall_mem_cons.mpr ⟨?_, h.results he⟩
      rcases hm with hm | ⟨hi, -⟩
      · exact Move.ret.inj hm
      · exact absurd he (h.error_of_interrupted hi)
  | @release pre post i r ht =>
    have hold : (i, r) ∈ g.tally.finished := h.threads (.returned i r) (by simp [ht])
    exact ⟨h.count, h.task, h.live, System.forall_mem_replace ht h.threads hold, h.results, h.error,
      h.refused, h.leaving, fun q hp => absurd hp (h.not_returned ht q)⟩
  | @record pre post i r ht =>
    have hold : (i, r) ∈ g.tally.finished := h.threads (.released i r) (by simp [ht])
    refine ⟨h.count, h.task, h.live, fun t hmem => h.threads t ?_, fun he => ?_, fun e he => ?_,
      h.refused, fun e hp he => ?_, fun q hp => absurd hp (h.not_returned ht q)⟩
    · rw [ht]
      exact (List.sublist_cons_self _ _).append_left pre |>.subset hmem
    · exact h.results (Option.or_eq_none_iff.mp he).1
    · -- The first error that is recorded is that of the function.
      cases herror : g.error with
      | some e' =>
        rw [herror] at he
        exact h.error e (herror.trans he)
      | none =>
        rw [herror, Option.none_or] at he
        cases r with
        | ok => cases he
        | error e' =>
          obtain rfl : e' = e := Option.some.inj he
          exact ⟨_, h.mem_of_finished hk hold, (h.results herror _ hold).symm⟩
    · exact h.leaving e hp (Option.or_eq_none_iff.mp he).1
  | @leave stop hp ht =>
    have herror : g.error.or stop = g.error := by
      cases stop with
      | none => exact Option.or_none
      | some e =>
        obtain ⟨e', he'⟩ := Option.ne_none_iff_exists'.mp (h.leaving e hp)
        rw [he', Option.some_or]
    refine h.move nofun nofun fun r hr => ?_
    obtain rfl := Phase.returned.inj hr
    exact ⟨herror.symm, ht, hk.complete hp ht⟩

theorem values (hp : g.phase = .returned none) {vs : List Value}
    (hvs : xs.map f = vs.map .ok) : g.tally.values g.count = vs := by
  obtain ⟨herror, -, hcomplete⟩ := h.returned none hp
  have hlookup : ∀ i, i < xs.length → g.tally.finished.lookup i = some (f (xs.getD i 0)) := by
    intro i hi
    have hmem : i ∈ g.tally.finished.map Prod.fst :=
      (hcomplete rfl).finished.mem_iff.mpr (List.mem_range.mpr (h.count ▸ hi))
    obtain ⟨x, hx, rfl⟩ := List.mem_map.mp hmem
    obtain ⟨r, hr⟩ := Option.isSome_iff_exists.mp
      (List.lookup_isSome_iff.mpr ⟨x, hx, beq_self_eq_true _⟩)
    obtain ⟨l, l', hl, -⟩ := List.lookup_eq_some_iff.mp hr
    rw [hr, ← h.results herror (x.1, r) (by simp [hl])]
  have hlength : xs.length = vs.length := by simpa using congrArg List.length hvs
  have hvalue : ∀ i, i < xs.length → (g.tally.finished.lookup i).bind Except.toOption = vs[i]? := by
    intro i hi
    have hi' : i < vs.length := hlength ▸ hi
    have hget : f xs[i] = .ok vs[i] := by
      have := congrArg (·[i]?) hvs
      simpa [hi, hi'] using this
    rw [hlookup i hi, List.getD_eq_getElem?_getD, List.getElem?_eq_getElem hi,
      Option.getD_some, hget,
      List.getElem?_eq_getElem hi']
    rfl
  unfold Tally.values
  rw [h.count, hlength]
  calc (List.range vs.length).filterMap (fun i => (g.tally.finished.lookup i).bind Except.toOption)
      = (List.range vs.length).filterMap (vs[·]?) :=
        List.filterMap_congr fun i hi => hvalue i (hlength ▸ List.mem_range.mp hi)
    _ = vs := filterMap_range_getElem? vs

theorem fails {r : Option Fault} (hp : g.phase = .returned r) {x : Float} (hx : x ∈ xs)
    {e : Fault} (he : f x = .error e) : ∃ y ∈ xs, ∃ e', f y = .error e' ∧ r = some e' := by
  obtain ⟨herror, -, hcomplete⟩ := h.returned r hp
  cases r with
  | some e' =>
    obtain ⟨y, hy, hfy⟩ := h.error e' herror
    exact ⟨y, hy, e', hfy, rfl⟩
  | none =>
    obtain ⟨i, hi, rfl⟩ := List.getElem_of_mem hx
    have hmem : i ∈ g.tally.finished.map Prod.fst :=
      (hcomplete rfl).finished.mem_iff.mpr (List.mem_range.mpr (h.count ▸ hi))
    obtain ⟨y, hy, rfl⟩ := List.mem_map.mp hmem
    obtain ⟨v, hv⟩ := (hcomplete rfl).succeeded y hy
    have := h.results herror y hy
    rw [hv, List.getD_eq_getElem?_getD, List.getElem?_eq_getElem hi, Option.getD_some, he] at this
    cases this

end

end Group.Serves

/-! ## Every run ends -/

def Thread.load : Thread Fault Value Float → Nat
  | .running .. => 3
  | .returned .. => 2
  | .released .. => 1

def Phase.load : Phase Fault → Nat
  | .entering => 7
  | .asking => 6
  | .waiting _ => 5
  | .holding => 4
  | .cleared => 3
  | .refused => 2
  | .leaving _ => 1
  | .returned _ => 0

def Group.load (g : Group Fault Value Float) : Nat :=
  8 * (g.count - g.tally.started.length) + g.phase.load + (g.threads.map Thread.load).sum

theorem Group.Serves.load_lt {f : Float → Except Fault Value} {late : Fault → Prop} {name : String}
    {xs : List Float} {g g' : Group Fault Value Float} {closed : Bool} {ticket : Nat}
    {e : Effect Fault Value}
    (h : g.Serves f xs) (hk : g.Kept) (hs : g.Step (callbacks f late name) closed ticket e g') :
    g'.load < g.load := by
  cases hs with
  | @run pre post i c c' ns ns' _ ht hr =>
    obtain ⟨rfl, rfl⟩ : c = .code (xs.getD i 0) ∧ ns = [] := h.threads (.running i c ns)
      (by simp [ht])
    cases hr with
    | run hm | nest hm => rcases hm with hm | ⟨-, e, -, hm⟩ <;> cases hm
  | ret ht | release ht | record ht =>
    simp [Group.load, ht, Thread.load, Tally.finish]
    try omega
  | start hp =>
    have hlt := hk.pending (by rw [hp]; trivial)
    simp [Group.load, hp, Phase.load, Thread.load, Tally.start]
    omega
  | refuse hp | letIn hp | last hp | ask hp | interrupt hp | abandon hp | grant hp | putBack hp
    | seeOpen hp | seeClosed hp | giveUp hp | leave hp => simp [Group.load, hp, Phase.load]

namespace System

def single (p : Pool) (xs : List Float) : System Fault Value Float :=
  { (idle p : System Fault Value Float) with groups := [.ofElements xs] }

inductive Run {ε ν κ : Type} (T : Tasks ε ν κ) (s : System ε ν κ) : Nat → System ε ν κ → Prop where
  | refl : Run T s 0 s
  | tail {n : Nat} {t u : System ε ν κ} {e : Effect ε ν} : Run T s n t → t.Step T e u →
    Run T s (n + 1) u

/-- The only call has returned: its results in the order of its tasks, or its error. -/
def Gives (s : System Fault Value Float) (r : Except Fault (List Value)) : Prop :=
  ∃ g, s.groups = [g] ∧ match r with
    | .ok vs => g.phase = .returned none ∧ vs = g.tally.values g.count
    | .error e => g.phase = .returned (some e)

def started (s : System Fault Value Float) : List Nat := s.groups.flatMap fun g => g.tally.started

variable {f : Float → Except Fault Value} {late : Fault → Prop} {name : String} {xs : List Float}
  {workers : Int} {n : Nat} {s s' : System Fault Value Float} {e : Effect Fault Value}

structure Serves (f : Float → Except Fault Value) (xs : List Float) (p : Pool)
    (g : Group Fault Value Float)
    (s : System Fault Value Float) : Prop where
  kept : Kept p s
  groups : s.groups = [g]
  closers : s.closers = []
  opened : s.pool.closed = false
  serves : g.Serves f xs

theorem serves_single (f : Float → Except Fault Value) (xs : List Float) {p : Pool}
    (hp : p.closed = false) : Serves f xs p (.ofElements xs) (single p xs) where
  kept := (kept_idle p).arrives (.scatter xs.length fun i => xs.getD i 0)
  groups := rfl
  closers := rfl
  opened := hp
  serves := ⟨rfl, fun _ => rfl, rfl, nofun, nofun, nofun, nofun, nofun, nofun⟩

theorem Serves.step {p : Pool} {g : Group Fault Value Float} (h : Serves f xs p g s)
    (hs : s.Step (callbacks f late name) e s') :
    ∃ g', Serves f xs p g' s' ∧ g'.load < g.load := by
  have hkept := h.kept.step hs
  cases hs with
  | @group pre post g₀ g' e hg hs ha =>
    rw [h.groups] at hg
    obtain ⟨rfl, rfl, rfl⟩ : pre = [] ∧ g = g₀ ∧ post = [] := by
      cases pre with
      | nil => simpa using hg
      | cons => simp at hg
    have hopen := h.opened
    rw [hopen] at hs
    have hgk := h.kept.groups g (by simp [h.groups])
    refine ⟨g', ⟨hkept, rfl, by simp [h.closers], ?_, h.serves.step hgk hs⟩,
      h.serves.load_lt hgk hs⟩
    cases e with
    | close =>
      cases hs with
      | run _ hr => cases hr
    | _ => exact hopen
  | closer hc => simp [h.closers] at hc

theorem Run.serves {p : Pool} (hp : p.closed = false)
    (h : Run (callbacks f late name) (single p xs) n s) :
    ∃ g, Serves f xs p g s ∧ n + g.load ≤ 8 * xs.length + 7 := by
  induction h with
  | refl => exact ⟨_, serves_single f xs hp, by simp [Group.load, Group.ofElements, Phase.load]⟩
  | tail _ hs ih =>
    obtain ⟨g, hserves, hload⟩ := ih
    obtain ⟨g', hserves', hlt⟩ := hserves.step hs
    exact ⟨g', hserves', by omega⟩

theorem Serves.progress {p : Pool} {g : Group Fault Value Float} (h : Serves f xs p g s)
    (hp : 1 ≤ p.size)
    (late : Fault → Prop) (name : String) :
    (∃ e s', s.Step (callbacks f late name) e s') ∨ ∃ r, s.Gives r := by
  by_cases hdone : ∃ r, g.phase = .returned r
  · obtain ⟨r, hr⟩ := hdone
    cases r with
    | none => exact .inr ⟨.ok _, g, h.groups, hr, rfl⟩
    | some e => exact .inr ⟨.error e, g, h.groups, hr⟩
  · refine .inl (h.kept.exists_step hp (.inl ⟨g, by simp [h.groups], fun r hr => hdone ⟨r, hr⟩⟩) ?_)
    exact fun _ _ _ x _ _ => ⟨.ret (f x), .inl rfl⟩

end System

end RealScript.Pool

namespace RealScript

open Stateful

def outcome {α : Type} : EStateM.Result Fault World α → Except Fault α
  | .ok v _ => .ok v
  | .error e _ => .error e

namespace Builtin

variable {f : Float → Except Fault Value} {call : FuncRef → List Value → Exec Value} {r : FuncRef}
  {ctx : Context} {name : String} {xs : List Float}

def passes (f : Float → Except Fault Value) (x : Float) : Bool := match f x with
  | .ok v => v.toNumber.abs > 0
  | .error _ => false

theorem map_fst_filter_zip {α β : Type} {p : β → Bool} {q : α → Bool} {xs : List α} {ys : List β}
    (h : List.Forall₂ (fun x y => q x = p y) xs ys) :
    ((xs.zip ys).filter fun z => p z.2).map Prod.fst = xs.filter q := by
  induction h with
  | nil => rfl
  | @cons x y xs ys hxy _ ih =>
    rw [List.zip_cons_cons, List.filter_cons, List.filter_cons, hxy]
    cases p y with
    | true => exact congrArg (x :: ·) ih
    | false => exact ih

theorem keep_eq_filter {vs : List Value} (h : xs.map f = vs.map .ok) :
    keep xs vs = xs.filter (passes f) := by
  refine map_fst_filter_zip (p := fun v : Value => v.toNumber.abs > 0) ?_
  have hall : List.Forall₂ (fun x v => f x = .ok v) xs vs := by
    have := List.forall₂_eq_eq_eq ▸ h
    rwa [List.forall₂_map_left_iff, List.forall₂_map_right_iff] at this
  refine hall.imp fun x v hx => ?_
  simp only [passes, hx]

theorem perform_each (hr : r.params.length = 1) (hf : ∀ x w, outcome (call r [.number x] w) = f x)
    (hctx : ctx.Calm) (found : List Value) {vs : List Value}
    (hvs : xs.map f = vs.map .ok) (w : World) :
    ∃ w', xs.mapM (fun x => call r [.number x]) w = .ok vs w' ∧ ∀ next,
      (each r next found xs).perform ctx call name w = (next (found.reverse ++ vs)).perform ctx
      call name w' := by
  induction xs generalizing found vs w with
  | nil =>
    obtain rfl : vs = [] := by simpa using hvs.symm
    exact ⟨w, rfl, fun next => by simp [each]⟩
  | cons x xs ih =>
    cases vs with
    | nil => cases hvs
    | cons v vs =>
      obtain ⟨hx, hxs⟩ := List.cons.inj hvs
      have hcall := hf x w
      rw [hx] at hcall
      cases hc : call r [.number x] w with
      | error e u =>
        rw [hc] at hcall
        cases hcall
      | ok v' u =>
        obtain rfl : v' = v := by simpa [hc, outcome] using hcall
        obtain ⟨w', hrest, hperform⟩ := ih (v' :: found) hxs u
        refine ⟨w', ?_, fun next => ?_⟩
        · rw [List.mapM_cons, bind_run, hc]
          dsimp only
          rw [bind_run, hrest]
          rfl
        · simp only [each, Action.perform, hctx w.clock]
          rw [Action.call, Action.perform_attempt (fun _ => rfl), if_neg (by simp [hr]), hc]
          dsimp only
          rw [hperform]
          simp

theorem perform_each_error (hr : r.params.length = 1)
    (hf : ∀ x w, outcome (call r [.number x] w) = f x)
    (hctx : ctx.Calm) (found : List Value) {x : Float} (hx : x ∈ xs) {e : Fault}
    (he : f x = .error e)
    (w : World) : ∃ y ∈ xs, ∃ e' w', f y = .error e' ∧
      ∀ next, (each r next found xs).perform ctx call name w = .error e' w' := by
  induction xs generalizing found w with
  | nil => cases hx
  | cons y ys ih =>
    have hcall := hf y w
    cases hc : call r [.number y] w with
    | error e' u =>
      refine ⟨y, List.mem_cons_self, e', u, by rw [← hcall, hc]; rfl, fun next => ?_⟩
      simp only [each, Action.perform, hctx w.clock]
      rw [Action.call, Action.perform_attempt (fun _ => rfl), if_neg (by simp [hr]), hc]
    | ok v u =>
      rcases List.mem_cons.mp hx with rfl | hx
      · rw [hc, he] at hcall
        cases hcall
      · obtain ⟨z, hz, e', w', hfz, hperform⟩ := ih (v :: found) hx u
        refine ⟨z, List.mem_cons_of_mem _ hz, e', w', hfz, fun next => ?_⟩
        simp only [each, Action.perform, hctx w.clock]
        rw [Action.call, Action.perform_attempt (fun _ => rfl), if_neg (by simp [hr]), hc]
        exact hperform next

/-- What is done for the elements of a collection does not depend on the order in which it is done.
Take a function whose outcome depends on its argument only, a caller that goes on and an open pool.
Every run of a call of the pool ends after finitely many steps, and it ends with the call having
returned. If the function succeeds on all elements, the call gives its results in the order of the
elements and has run one task for each of them, once; so do the calls one after the other that tasks
make, and `map` and `filter` go on from these results and return the same in both cases. If it fails
on some element, there is no result, but an error of the function itself. -/
theorem scatter_gathers (hr : r.params.length = 1)
    (hf : ∀ x w, outcome (call r [.number x] w) = f x)
    (hctx : ctx.Calm) (xs : List Float) (workers : Int) (late : Fault → Prop)
    (name : String) {w : World}
    (hw : w.pool.closed = false) :
    (∀ n s, Pool.System.Run (Pool.callbacks f late name) (.single (Pool.ofWorkers workers) xs) n s →
      n ≤ 8 * xs.length + 7 ∧
      ((∃ e s', s.Step (Pool.callbacks f late name) e s') ∨ ∃ q, s.Gives q) ∧
      ∀ q, s.Gives q →
        (∀ vs, xs.map f = vs.map .ok → q = .ok vs ∧ s.started.Perm (List.range xs.length) ∧
          outcome ((map [.function (some r), .collection xs]).perform ctx call name w) =
            q.map (fun vs => .collection (vs.map Value.toNumber)) ∧
          outcome ((filter [.function (some r), .collection xs]).perform ctx call name w) =
            q.map (fun vs => .collection (keep xs vs))) ∧
        ∀ x ∈ xs, ∀ e, f x = .error e → ∃ y ∈ xs, ∃ e', f y = .error e' ∧ q = .error e') ∧
    (∀ vs, xs.map f = vs.map .ok → ∃ w', xs.mapM (fun x => call r [.number x]) w = .ok vs w' ∧
      (∀ next, (scatter (.function (some r)) xs next).perform ctx call name w =
        (next vs).perform ctx call name w') ∧
      (map [.function (some r), .collection xs]).perform ctx call name w =
        .ok (.collection (vs.map Value.toNumber)) w' ∧
      (filter [.function (some r), .collection xs]).perform ctx call name w =
        .ok (.collection (xs.filter (passes f))) w') ∧
    ∀ x ∈ xs, ∀ e, f x = .error e → ∃ y ∈ xs, ∃ e' w', f y = .error e' ∧
      (map [.function (some r), .collection xs]).perform ctx call name w = .error e' w' ∧
      (filter [.function (some r), .collection xs]).perform ctx call name w = .error e' w' := by
  have hscatter (next : List Value → Action) :
      (scatter (.function (some r)) xs next).perform ctx call name w =
        (each r next [] xs).perform ctx call name w := by
    simp only [scatter, Value.toFunction, Action.perform, hw, Bool.false_eq_true, if_false]
  have hdone (vs : List Value) (hvs : xs.map f = vs.map .ok) (next : List Value → Value) :
      outcome ((scatter (.function (some r)) xs fun vs => .done (next vs)).perform ctx call name w)
        =
        .ok (next vs) := by
    obtain ⟨w', hperform⟩ : ∃ w', ∀ next, (each r next [] xs).perform ctx call name w =
        (next vs).perform ctx call name w' :=
      (perform_each hr hf hctx [] hvs w).imp fun _ h => h.2
    rw [hscatter, hperform]
    rfl
  refine ⟨fun n s hrun => ?_, fun vs hvs => ?_, fun x hx e he => ?_⟩
  · obtain ⟨g, hserves, hload⟩ := hrun.serves rfl
    refine ⟨by omega, hserves.progress (Nat.le_max_left 1 _) late name, fun q hq => ?_⟩
    obtain ⟨g', hg', hq⟩ := hq
    obtain rfl : g = g' := by simpa [hserves.groups] using hg'
    have hs := hserves.serves
    refine ⟨fun vs hvs => ?_, fun x hx e he => ?_⟩
    · cases q with
      | ok us =>
        obtain ⟨hp, rfl⟩ := hq
        obtain ⟨-, -, hcomplete⟩ := hs.returned none hp
        have hstarted := (hcomplete rfl).started
        rw [hs.count] at hstarted
        obtain rfl := hs.values hp hvs
        exact ⟨rfl, by simpa [Pool.System.started, hserves.groups], hdone _ hvs _, hdone _ hvs _⟩
      | error e =>
        obtain ⟨x, hx, hfx⟩ := hs.error e (hs.returned _ hq).1
        have hmem : f x ∈ vs.map Except.ok := hvs ▸ List.mem_map_of_mem hx
        obtain ⟨v, -, hv⟩ := List.mem_map.mp hmem
        rw [hfx] at hv
        cases hv
    · cases q with
      | ok us =>
        obtain ⟨_, _, _, -, hr⟩ := hs.fails hq.1 hx he
        cases hr
      | error e' =>
        obtain ⟨y, hy, e'', hfy, hr⟩ := hs.fails hq hx he
        exact ⟨y, hy, e'', hfy, congrArg Except.error (Option.some.inj hr)⟩
  · obtain ⟨w', hcalls, hperform⟩ := perform_each hr hf hctx [] hvs w
    have hnext (next : List Value → Action) :
        (scatter (.function (some r)) xs next).perform ctx call name w =
          (next vs).perform ctx call name w' := by
      rw [hscatter next, hperform next]
      rfl
    refine ⟨w', hcalls, hnext, hnext _, ?_⟩
    rw [← keep_eq_filter hvs]
    exact hnext _
  · obtain ⟨y, hy, e', w', hfy, hperform⟩ := perform_each_error hr hf hctx [] hx he w
    exact ⟨y, hy, e', w', hfy, (hscatter _).trans (hperform _), (hscatter _).trans (hperform _)⟩

theorem scatter_gathers_identity :
    let r : FuncRef := ⟨0, "id", [.real], .real⟩
    let call : FuncRef → List Value → Exec Value := fun _ args w => .ok (args.headD .zero) w
    let f : Float → Except Fault Value := fun x => .ok (.number x)
    (r.params.length = 1 ∧ (∀ x w, outcome (call r [.number x] w) = f x) ∧ Context.Calm {} ∧
      ({} : World).pool.closed = false) ∧
    (∀ n s, Pool.System.Run (Pool.callbacks f (fun _ => True) "filter")
      (.single (Pool.ofWorkers 2) [2, 0, 1])
      n s → n ≤ 31 ∧ ∀ q, s.Gives q → q = .ok [.number 2, .number 0, .number 1]) ∧
    ∃ w', (filter [.function (some r), .collection [2, 0, 1]]).perform {} call "filter" {} =
      .ok (.collection (List.filter (passes f) [2, 0, 1])) w' := by
  intro r call f
  have hf : ∀ x w, outcome (call r [.number x] w) = f x := fun _ _ => rfl
  have hctx : Context.Calm {} := fun _ => rfl
  obtain ⟨hpool, hinline, -⟩ := scatter_gathers (w := {}) rfl hf hctx [2, 0,
    1] 2 (fun _ => True) "filter" rfl
  refine ⟨⟨rfl, hf, hctx, rfl⟩, fun n s hrun => ?_, ?_⟩
  · obtain ⟨hn, -, hgives⟩ := hpool n s hrun
    exact ⟨hn, fun q hq => ((hgives q hq).1 _ rfl).1⟩
  · obtain ⟨w', -, -, -, hfilter⟩ := hinline [.number 2, .number 0, .number 1] rfl
    exact ⟨w', hfilter⟩

end Builtin

end RealScript
