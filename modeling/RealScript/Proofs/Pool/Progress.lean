import RealScript.Proofs.Pool.Bounds

/-! # Pools never get stuck

As long as running tasks have moves, some call can take a step. Calls that wait for permits have
none themselves, so when all that are not done wait, all permits are free and the first in the queue
gets what it asks for.
-/

namespace RealScript.Pool

variable {ε ν κ : Type} {T : Tasks ε ν κ} {closed : Bool} {ticket : Nat}

def Effect.Granted (e : Effect ε ν) : Prop := ∃ weight t, e = .grant weight t

theorem System.admits_of_not_granted {s : System ε ν κ} {e : Effect ε ν} (h : ¬ e.Granted) :
    s.Admits e := by
  cases e with
  | grant weight t => exact absurd ⟨weight, t, rfl⟩ h
  | _ => trivial

theorem Runs.exists_of_move {cancelled : Bool} {c : Control ε ν κ} (closed : Bool)
    (ns : List (Nested ε ν κ)) (hk : c.Kept)
    (hm : ∀ d, c = .code d → ∃ m, T.moves cancelled d m) :
    (∃ e c' ns', Runs T closed cancelled c ns e c' ns' ∧ ¬ e.Granted) ∨
      ∃ d r, c = .code d ∧ ns = [] ∧ T.moves cancelled d (.ret r) := by
  cases c with
  | code d =>
    obtain ⟨m, hm⟩ := hm d rfl
    cases m with
    | run c' => exact .inl ⟨_, _, _, .run hm, nofun⟩
    | scatter => exact .inl ⟨_, _, _, .nest hm, nofun⟩
    | ret r =>
      cases ns with
      | nil => exact .inr ⟨d, r, rfl, rfl, hm⟩
      | cons =>
        cases r with
        | ok v => exact .inl ⟨_, _, _, .done hm, nofun⟩
        | error e => exact .inl ⟨_, _, _, .fail hm, nofun⟩
  | enter n =>
    cases closed with
    | true => exact .inl ⟨_, _, _, .refuse rfl, nofun⟩
    | false => exact .inl ⟨_, _, _, .letIn rfl, nofun⟩
  | loop n =>
    rcases Nat.lt_or_eq_of_le hk.2 with hlt | heq
    · cases cancelled with
      | true => exact .inl ⟨_, _, _, .interrupt hlt rfl, nofun⟩
      | false => exact .inl ⟨_, _, _, .start hlt rfl, nofun⟩
    · exact .inl ⟨_, _, _, .complete heq, nofun⟩

def Group.Parked (g : Group ε ν κ) : Prop :=
  g.threads = [] ∧ ((∃ t, g.phase = .waiting t) ∨ ∃ e, g.phase = .returned e)

theorem Group.Kept.exists_step_of_threads {g : Group ε ν κ} (h : g.Kept)
    (hl : ∀ i c ns, .running i (.code c) ns ∈ g.threads → ∃ m, T.moves g.interrupted c m)
    (ht : g.threads ≠ []) : ∃ e g', g.Step T closed ticket e g' ∧ ¬ e.Granted := by
  obtain ⟨t, ts, ht⟩ := List.exists_cons_of_ne_nil ht
  have hfirst : g.threads = [] ++ t :: ts := ht
  cases t with
  | running i c ns =>
    obtain ⟨hc, -⟩ := h.threads i c ns (by simp [ht])
    rcases Runs.exists_of_move closed ns hc fun d hd => hl i d ns (by simp [ht, hd]) with
      ⟨e, c', ns', hr, he⟩ | ⟨d, r, rfl, rfl, hm⟩
    · exact ⟨e, _, .run hfirst hr, he⟩
    · exact ⟨_, _, .ret hfirst hm, nofun⟩
  | returned i r => exact ⟨_, _, .release hfirst, nofun⟩
  | released i r => exact ⟨_, _, .record hfirst, nofun⟩

theorem Group.Kept.exists_step {g : Group ε ν κ} (h : g.Kept)
    (hl : ∀ i c ns, .running i (.code c) ns ∈ g.threads → ∃ m, T.moves g.interrupted c m)
    (hp : ¬ g.Parked) : ∃ e g', g.Step T closed ticket e g' ∧ ¬ e.Granted := by
  by_cases ht : g.threads = []
  · cases hphase : g.phase with
    | entering =>
      cases hc : closed with
      | true => exact ⟨_, _, .refuse hphase rfl, nofun⟩
      | false => exact ⟨_, _, .letIn hphase rfl, nofun⟩
    | asking =>
      rcases Nat.lt_or_eq_of_le h.bound with hlt | heq
      · exact ⟨_, _, .ask hphase hlt, nofun⟩
      · exact ⟨_, _, .last hphase heq, nofun⟩
    | waiting t => exact absurd ⟨ht, .inl ⟨t, hphase⟩⟩ hp
    | holding =>
      cases hc : closed with
      | true => exact ⟨_, _, .seeClosed hphase rfl, nofun⟩
      | false => exact ⟨_, _, .seeOpen hphase rfl, nofun⟩
    | cleared => exact ⟨_, _, .start hphase, nofun⟩
    | refused => exact ⟨_, _, .giveUp hphase, nofun⟩
    | leaving stop => exact ⟨_, _, .leave hphase ht, nofun⟩
    | returned e => exact absurd ⟨ht, .inr ⟨e, hphase⟩⟩ hp
  · exact h.exists_step_of_threads hl ht

theorem Group.Parked.permits {g : Group ε ν κ} (h : g.Parked) : g.permits = 0 := by
  obtain ⟨ht, ⟨t, hp⟩ | ⟨e, hp⟩⟩ := h <;> simp [Group.permits, ht, hp, Phase.permits]

def Closer.Parked (c : Closer) : Prop := (∃ t, c = .waiting t) ∨ ∃ first, c = .returned first

theorem Closer.exists_step {c : Closer} (size : Nat) (hp : ¬ c.Parked) :
    ∃ (e : Effect ε ν) (c' : Closer), c.Step size closed ticket e c' ∧ ¬ e.Granted := by
  cases c with
  | calling =>
    cases hc : closed with
    | true => exact ⟨_, _, .late rfl, nofun⟩
    | false => exact ⟨_, _, .set rfl, nofun⟩
  | asking => exact ⟨_, _, .ask, nofun⟩
  | waiting t => exact absurd (.inl ⟨t, rfl⟩) hp
  | holding => exact ⟨_, _, .release, nofun⟩
  | returned first => exact absurd (.inr ⟨first, rfl⟩) hp

theorem Closer.Parked.permits {c : Closer} (h : c.Parked) (size : Nat) : c.permits size = 0 := by
  rcases h with ⟨t, rfl⟩ | ⟨first, rfl⟩ <;> rfl

namespace System

variable {p : Pool} {s : System ε ν κ}

theorem Kept.free_of_parked (h : Kept p s) (hg : ∀ g ∈ s.groups, g.Parked)
    (hc : ∀ c ∈ s.closers, c.Parked) : s.free = p.size := by
  have hgroups : (s.groups.map Group.permits).sum = 0 := by
    refine List.sum_eq_zero_iff_forall_eq_nat.mpr fun n hn => ?_
    obtain ⟨g, hmem, rfl⟩ := List.mem_map.mp hn
    exact (hg g hmem).permits
  have hclosers : (s.closers.map (Closer.permits s.pool.size)).sum = 0 := by
    refine List.sum_eq_zero_iff_forall_eq_nat.mpr fun n hn => ?_
    obtain ⟨c, hmem, rfl⟩ := List.mem_map.mp hn
    exact (hc c hmem).permits _
  have hpermits := h.permits
  unfold held at hpermits
  omega

theorem exists_min_of_ne_nil {ts : List Nat} (h : ts ≠ []) : ∃ t ∈ ts, ∀ u ∈ ts, t ≤ u := by
  obtain ⟨t, hmem⟩ := List.exists_mem_of_ne_nil ts h
  obtain ⟨m, hm⟩ := WithTop.ne_top_iff_exists.mp (List.minimum_ne_top_of_ne_nil h)
  exact ⟨m, List.minimum_mem hm.symm, fun u hu => List.minimum_le_of_mem hu hm.symm⟩

theorem Kept.exists_grant (h : Kept p s) (hp : 1 ≤ p.size) (hf : s.free = p.size)
    (hw : s.waiting ≠ []) :
    ∃ e s', s.Step T e s' := by
  obtain ⟨t, hmem, hleast⟩ := exists_min_of_ne_nil hw
  rcases List.mem_append.mp hmem with hmem | hmem
  · obtain ⟨g, hg, ht⟩ := List.mem_filterMap.mp hmem
    obtain ⟨pre, post, hsplit⟩ := List.append_of_mem hg
    have hphase : g.phase = .waiting t := by
      cases hphase : g.phase <;> simp [hphase, Phase.ticket?] at ht
      rw [ht]
    exact ⟨_, _, .group hsplit (.grant hphase) ⟨hf ▸ hp, hleast⟩⟩
  · obtain ⟨c, hc, ht⟩ := List.mem_filterMap.mp hmem
    obtain ⟨pre, post, hsplit⟩ := List.append_of_mem hc
    have hphase : c = .waiting t := by
      cases c <;> simp [Closer.ticket?] at ht
      rw [ht]
    subst hphase
    exact ⟨_, _, .closer hsplit .grant ⟨by rw [hf, h.size], hleast⟩⟩

theorem Kept.exists_step (h : Kept p s) (hp : 1 ≤ p.size) (hu : s.Unfinished) (hl : s.Lively T) :
    ∃ e s', s.Step T e s' := by
  by_cases hgroups : ∀ g ∈ s.groups, g.Parked
  · by_cases hclosers : ∀ c ∈ s.closers, c.Parked
    · refine h.exists_grant hp (h.free_of_parked hgroups hclosers) fun hnil => ?_
      obtain ⟨hnone, hnone'⟩ := List.append_eq_nil_iff.mp hnil
      rcases hu with ⟨g, hg, hne⟩ | ⟨c, hc, hne⟩
      · rcases (hgroups g hg).2 with ⟨t, ht⟩ | ⟨e, he⟩
        · have := List.filterMap_eq_nil_iff.mp hnone g hg
          rw [ht] at this
          cases this
        · exact hne e he
      · rcases hclosers c hc with ⟨t, rfl⟩ | ⟨first, rfl⟩
        · cases List.filterMap_eq_nil_iff.mp hnone' _ hc
        · exact hne first rfl
    · simp only [not_forall] at hclosers
      obtain ⟨c, hc, hparked⟩ := hclosers
      obtain ⟨pre, post, hsplit⟩ := List.append_of_mem hc
      obtain ⟨e, c', hs, he⟩ := Closer.exists_step s.pool.size hparked
      exact ⟨e, _, .closer hsplit hs (admits_of_not_granted he)⟩
  · simp only [not_forall] at hgroups
    obtain ⟨g, hg, hparked⟩ := hgroups
    obtain ⟨pre, post, hsplit⟩ := List.append_of_mem hg
    obtain ⟨e, g', hs, he⟩ := (h.groups g hg).exists_step (hl g hg) hparked
    exact ⟨e, _, .group hsplit hs (admits_of_not_granted he)⟩

/-- A pool bounds its work and drains it. At most as many tasks run as there are workers. When the
call that closed the pool has returned, no task runs and none starts any more. A call that returns
no error has run each of its tasks once, and all went well. And some call can always take a step,
unless all are done or a task that runs has no move. -/
theorem Reachable.bounds_and_drains {workers : Int} (h : Reachable T (Pool.ofWorkers workers) s) :
    s.running.length ≤ (Pool.ofWorkers workers).size ∧
    (.returned true ∈ s.closers → ∀ s', Relation.ReflTransGen (Next T) s s' →
      s'.running = [] ∧ ∀ e s'', s'.Step T e s'' → e ≠ .start) ∧
    (∀ r ∈ s.returns, r.error = none → r.tally.Complete r.count) ∧
    (s.Unfinished → s.Lively T → ∃ e s', s.Step T e s') := by
  have hkept := h.kept
  refine ⟨hkept.length_running_le, fun hc s' hs => ?_, hkept.returns,
    hkept.exists_step (Nat.le_max_left 1 _)⟩
  have hc' : .returned true ∈ s'.closers := by
    induction hs with
    | refl => exact hc
    | tail _ hn ih => exact returned_of_next ih hn
  exact (hkept.steps hs).drained hc'

def relay : Tasks Unit Unit Bool where
  moves _ c m := m = if c then .scatter 1 (fun _ => false) (fun _ => false) else .ret (.ok ())
  closed := ()
  interrupted := ()

/-- The only worker is in a task of a task while somebody waits for the pool to drain. -/
def relayed : System Unit Unit Bool where
  pool := { size := 1, closed := true }
  free := 0
  ticket := 2
  groups := [{
    count := 1, task := fun _ => true, phase := .asking, tally := { started := [0] }
    threads := [.running 0 (.code false)
      [{ count := 1, task := fun _ => false, next := fun _ => false, tally := { started := [0] } }]]
        }]
  closers := [.waiting 1]

theorem reachable_relayed : Reachable relay (Pool.ofWorkers 1) relayed := by
  have turn {s s' : System Unit Unit Bool} {g g' : Group Unit Unit Bool} {e : Effect Unit Unit}
      (h : Reachable relay (Pool.ofWorkers 1) s) (hg : s.groups = [] ++ g :: [])
      (hs : g.Step relay s.pool.closed s.ticket e g') (ha : s.Admits e)
      (he : { s.apply e with groups := [g'] } = s') : Reachable relay (Pool.ofWorkers 1) s' :=
    h.tail (.inl ⟨e, he ▸ .group hg hs ha⟩)
  have shut {s s' : System Unit Unit Bool} {c c' : Closer} {e : Effect Unit Unit}
      (h : Reachable relay (Pool.ofWorkers 1) s) (hc : s.closers = [] ++ c :: [])
      (hs : c.Step s.pool.size s.pool.closed s.ticket e c') (ha : s.Admits e)
      (he : { s.apply e with closers := [c'] } = s') : Reachable relay (Pool.ofWorkers 1) s' :=
    h.tail (.inl ⟨e, he ▸ .closer hc hs ha⟩)
  have h₁ : Reachable relay (Pool.ofWorkers 1) _ := .single (.inr (.scatter 1 fun _ => true))
  have h₂ := turn h₁ rfl (.letIn rfl rfl) trivial rfl
  have h₃ := turn h₂ rfl (.ask rfl Nat.zero_lt_one) trivial rfl
  have h₄ := turn h₃ rfl (.grant rfl) ⟨Nat.le_refl 1, fun _ _ => Nat.zero_le _⟩ rfl
  have h₅ := turn h₄ rfl (.seeOpen rfl rfl) trivial rfl
  have h₆ := turn h₅ rfl (.start rfl) trivial rfl
  have only (t : Thread Unit Unit Bool) : [t] = [] ++ t :: [] := rfl
  have h₇ := turn h₆ rfl (.run (only _) (.nest rfl)) trivial rfl
  have h₈ := turn h₇ rfl (.run (only _) (.letIn rfl)) trivial rfl
  have h₉ := turn h₈ rfl (.run (only _) (.start Nat.zero_lt_one rfl)) trivial rfl
  have h₁₀ := h₉.tail (.inr .close)
  have h₁₁ := shut h₁₀ rfl (.set rfl) trivial rfl
  exact shut h₁₁ rfl .ask trivial rfl

theorem bounds_and_drains_relayed :
    Reachable relay (Pool.ofWorkers 1) relayed ∧ relayed.Unfinished ∧ relayed.Lively relay ∧
      relayed.running.length ≤ 1 ∧ ∃ e s', relayed.Step relay e s' := by
  have hunfinished : relayed.Unfinished := .inr ⟨_, List.mem_singleton_self _, nofun⟩
  have hlively : relayed.Lively relay := by
    intro g hg i c ns _
    exact ⟨_, rfl⟩
  obtain ⟨hbound, -, -, hstep⟩ := reachable_relayed.bounds_and_drains
  exact ⟨reachable_relayed, hunfinished, hlively, hbound, hstep hunfinished hlively⟩

end System

end RealScript.Pool
