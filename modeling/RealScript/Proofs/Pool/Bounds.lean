import RealScript.Proofs.Pool.System

/-! # What a pool promises

Permits are neither made nor lost, so no more tasks run than there are workers, and who has all
permits knows that no task runs. What a call has started is either done or still running, so a call
that returns no error has run all of its tasks. Nobody waits for a permit that a waiting call has:
calls that tasks make need none.
-/

namespace RealScript.Pool

variable {ε ν κ : Type} {T : Tasks ε ν κ} {closed : Bool} {ticket : Nat}

/-! ## Permits -/

def Effect.taken : Effect ε ν → Nat
  | .grant weight _ => weight
  | _ => 0

def Effect.given : Effect ε ν → Nat
  | .release weight => weight
  | _ => 0

def Thread.permits : Thread ε ν κ → Nat
  | .running .. | .returned .. => 1
  | .released .. => 0

def Phase.permits : Phase ε → Nat
  | .holding | .cleared | .refused => 1
  | _ => 0

def Group.permits (g : Group ε ν κ) : Nat := g.phase.permits + (g.threads.map Thread.permits).sum

def Closer.permits (size : Nat) : Closer → Nat
  | .holding => size
  | _ => 0

theorem Runs.balance {cancelled : Bool} {c c' : Control ε ν κ} {ns ns' : List (Nested ε ν κ)}
    {e : Effect ε ν} (h : Runs T closed cancelled c ns e c' ns') : e.taken = 0 ∧ e.given = 0 := by
  cases h <;> exact ⟨rfl, rfl⟩

theorem Group.Step.balance {g g' : Group ε ν κ} {e : Effect ε ν} (h : g.Step T closed ticket e g') :
    g.permits + e.taken = g'.permits + e.given := by
  cases h with
  | run ht hr =>
    obtain ⟨htaken, hgiven⟩ := hr.balance
    simp [permits, ht, Thread.permits, htaken, hgiven]
  | start hp => simp [permits, hp, Phase.permits, Thread.permits, Effect.taken, Effect.given]
  | ret ht | release ht | record ht =>
    simp [permits, ht, Thread.permits, Effect.taken, Effect.given]
    try omega
  | leave hp | refuse hp | letIn hp | last hp | ask hp | interrupt hp | abandon hp | grant hp
  | putBack hp
    | seeOpen hp | seeClosed hp | giveUp hp =>
    simp [permits, hp, Phase.permits, Effect.taken, Effect.given]
    try omega

theorem Closer.Step.balance {size : Nat} {c c' : Closer} {e : Effect ε ν}
    (h : c.Step size closed ticket e c') :
    c.permits size + e.taken = c'.permits size + e.given := by
  cases h <;> simp [permits, Effect.taken, Effect.given]

namespace System

variable {s s' : System ε ν κ} {p : Pool}

def held (s : System ε ν κ) : Nat :=
  (s.groups.map Group.permits).sum + (s.closers.map (Closer.permits s.pool.size)).sum

@[simp] theorem size_apply (s : System ε ν κ) (e : Effect ε ν) :
    (s.apply e).pool.size = s.pool.size := by
  cases e <;> rfl

@[simp] theorem groups_apply (s : System ε ν κ) (e : Effect ε ν) :
    (s.apply e).groups = s.groups := by
  cases e <;> rfl

@[simp] theorem closers_apply (s : System ε ν κ) (e : Effect ε ν) :
    (s.apply e).closers = s.closers := by
  cases e <;> rfl

theorem free_apply {e : Effect ε ν} (h : s.Admits e) :
    (s.apply e).free + e.taken = s.free + e.given := by
  cases e with
  | grant weight => exact Nat.sub_add_cancel h.1
  | _ => rfl

theorem Step.balance {e : Effect ε ν} (h : s.Step T e s') :
    s'.pool.size = s.pool.size ∧ s'.free + s'.held = s.free + s.held := by
  cases h with
  | group hg hs ha =>
    have hb := hs.balance
    have hf := free_apply ha
    refine ⟨s.size_apply e, ?_⟩
    simp only [held, hg, closers_apply, size_apply, List.map_append, List.map_cons, List.sum_append,
      List.sum_cons]
    omega
  | closer hc hs ha =>
    have hb := hs.balance
    have hf := free_apply ha
    refine ⟨s.size_apply e, ?_⟩
    simp only [held, hc, groups_apply, size_apply, List.map_append, List.map_cons, List.sum_append,
      List.sum_cons]
    omega

theorem Arrives.balance (h : s.Arrives s') :
    s'.pool = s.pool ∧ s'.free + s'.held = s.free + s.held := by
  cases h with
  | scatter | close => exact ⟨rfl, by simp [held, Group.permits, Phase.permits, Closer.permits]⟩
  | cancel hg => exact ⟨rfl, by simp [held, hg, Group.permits]⟩

theorem length_running_le (s : System ε ν κ) :
    s.running.length ≤ (s.groups.map Group.permits).sum := by
  unfold running
  induction s.groups with
  | nil => exact Nat.le_refl 0
  | cons g gs ih =>
    have hthreads : ∀ ts : List (Thread ε ν κ),
        (ts.filter Thread.isRunning).length ≤ (ts.map Thread.permits).sum := by
      intro ts
      induction ts with
      | nil => exact Nat.le_refl 0
      | cons t ts ih =>
        cases t <;> simp [List.filter_cons, Thread.isRunning, Thread.permits] <;> omega
    have := hthreads g.threads
    simp only [List.flatMap_cons, List.length_append, List.map_cons, List.sum_cons, Group.permits]
    omega

end System

/-! ## Closing -/

def Closer.Begun : Closer → Prop
  | .calling | .returned false => False
  | _ => True

def Closer.Through : Closer → Prop
  | .holding | .returned true => True
  | _ => False

theorem Closer.Through.begun {c : Closer} (h : c.Through) : c.Begun := by
  match c, h with
  | .holding, _ | .returned true, _ => trivial

structure Group.Still (g : Group ε ν κ) : Prop where
  phase : g.phase ≠ .cleared
  threads : ∀ t ∈ g.threads, ∃ i r, t = .released i r

theorem Group.still_of_permits {g : Group ε ν κ} (h : g.permits = 0) : g.Still := by
  obtain ⟨hphase, hthreads⟩ := Nat.add_eq_zero_iff.mp h
  refine ⟨fun he => by simp [he, Phase.permits] at hphase, fun t ht => ?_⟩
  have hzero := List.sum_eq_zero_iff_forall_eq_nat.mp hthreads _ (List.mem_map_of_mem ht)
  cases t with
  | running | returned => cases hzero
  | released i r => exact ⟨i, r, rfl⟩

theorem Group.Still.step {g g' : Group ε ν κ} {e : Effect ε ν} (h : g.Still)
    (hs : g.Step T true ticket e g') : g'.Still ∧ e ≠ .start := by
  have gone {t : Thread ε ν κ} {pre post : List (Thread ε ν κ)}
    (ht : g.threads = pre ++ t :: post) : ∃ i r, t = .released i r := h.threads t (by simp [ht])
  cases hs with
  | start hp => exact absurd hp h.phase
  | seeOpen _ hc => cases hc
  | run ht | ret ht | release ht =>
    obtain ⟨_, _, he⟩ := gone ht
    cases he
  | record ht =>
    refine ⟨⟨h.phase, fun t hmem => h.threads t ?_⟩, nofun⟩
    rw [ht]
    rcases List.mem_append.mp hmem with hmem | hmem
    · exact List.mem_append_left _ hmem
    · exact List.mem_append_right _ (List.mem_cons_of_mem _ hmem)
  | _ => exact ⟨⟨nofun, h.threads⟩, nofun⟩

theorem Closer.Step.begun {size : Nat} {c c' : Closer} {e : Effect ε ν}
    (h : c.Step size closed ticket e c') (hc : c'.Begun) : c.Begun ∨ e = .close := by
  cases h with
  | set => exact .inr rfl
  | late => exact hc.elim
  | _ => exact .inl trivial

theorem Closer.Step.through {size : Nat} {c c' : Closer} {e : Effect ε ν}
    (h : c.Step size closed ticket e c') (hc : c'.Through) :
    c.Through ∨ ∃ t, e = .grant size t := by
  cases h with
  | set | late | ask => exact hc.elim
  | grant => exact .inr ⟨_, rfl⟩
  | release => exact .inl trivial

/-! ## Tasks that were started -/

namespace Tally

variable {t : Tally ε ν} {n : Nat}

structure Settled (t : Tally ε ν) : Prop where
  started : t.started.Perm (List.range t.started.length)
  finished : (t.finished.map Prod.fst).Perm t.started
  succeeded : ∀ x ∈ t.finished, ∃ v, x.2 = .ok v

theorem Settled.complete (h : t.Settled) (hn : t.started.length = n) : t.Complete n :=
  ⟨hn ▸ h.started, h.finished.trans (hn ▸ h.started), h.succeeded⟩

theorem settled_empty : ({} : Tally ε ν).Settled := ⟨.refl _, .refl _, nofun⟩

theorem perm_start (h : t.started.Perm (List.range t.started.length)) :
    t.start.started.Perm (List.range t.start.started.length) := by
  change (t.started.length :: t.started).Perm (List.range (t.started.length + 1))
  rw [List.range_succ]
  exact (h.cons _).trans (List.perm_append_singleton _ _).symm

theorem Settled.finishLast (h : t.Settled) (v : ν) : (t.start.finishLast (.ok v)).Settled where
  started := perm_start h.started
  finished := h.finished.cons t.started.length
  succeeded x hx := by
    rcases List.mem_cons.mp hx with rfl | hx
    · exact ⟨v, rfl⟩
    · exact h.succeeded x hx

end Tally

def Nested.Between (n : Nested ε ν κ) : Prop := n.tally.Settled ∧ n.tally.started.length ≤ n.count

def Nested.Inside (n : Nested ε ν κ) : Prop :=
  ∃ t : Tally ε ν, t.Settled ∧ t.started.length < n.count ∧ n.tally = t.start

def Control.Kept : Control ε ν κ → Prop
  | .code _ => True
  | .enter n | .loop n => n.Between

def Effect.Kept : Effect ε ν → Prop
  | .returns r => r.error = none → r.tally.Complete r.count
  | _ => True

theorem Runs.kept {cancelled : Bool} {c c' : Control ε ν κ} {ns ns' : List (Nested ε ν κ)}
    {e : Effect ε ν}
    (h : Runs T closed cancelled c ns e c' ns') (hc : c.Kept) (hns : ∀ n ∈ ns, n.Inside) :
    e.Kept ∧ c'.Kept ∧ ∀ n ∈ ns', n.Inside := by
  cases h with
  | run => exact ⟨trivial, trivial, hns⟩
  | nest => exact ⟨trivial, ⟨Tally.settled_empty, Nat.zero_le _⟩, hns⟩
  | refuse | interrupt => exact ⟨nofun, trivial, hns⟩
  | letIn => exact ⟨trivial, hc, hns⟩
  | complete hn => exact ⟨fun _ => hc.1.complete hn, trivial, hns⟩
  | start hn => exact ⟨trivial, trivial, List.forall_mem_cons.mpr ⟨⟨_, hc.1, hn, rfl⟩, hns⟩⟩
  | @done _ n _ v =>
    obtain ⟨⟨t, ht, hlt, he⟩, hns⟩ := List.forall_mem_cons.mp hns
    refine ⟨trivial, ?_, hns⟩
    change (n.tally.finishLast (.ok v)).Settled ∧ n.tally.started.length ≤ n.count
    rw [he]
    exact ⟨ht.finishLast v, hlt⟩
  | fail => exact ⟨nofun, trivial, (List.forall_mem_cons.mp hns).2⟩

def Thread.running? : Thread ε ν κ → Option Nat
  | .running i _ _ => some i
  | _ => none

def Thread.Failed : Thread ε ν κ → Prop
  | .returned _ (.error _) | .released _ (.error _) => True
  | _ => False

def Phase.Pending : Phase ε → Prop
  | .waiting _ | .holding | .cleared | .refused => True
  | _ => False

structure Group.Kept (g : Group ε ν κ) : Prop where
  started : g.tally.started.Perm (List.range g.tally.started.length)
  bound : g.tally.started.length ≤ g.count
  pending : g.phase.Pending → g.tally.started.length < g.count
  last : g.phase = .leaving none → g.tally.started.length = g.count
  account : (g.tally.finished.map Prod.fst ++ g.threads.filterMap Thread.running?).Perm
    g.tally.started
  failed : (∃ x ∈ g.tally.finished, ∃ e, x.2 = .error e) → g.error ≠ none ∨
    ∃ t ∈ g.threads, t.Failed
  threads : ∀ i c ns, .running i c ns ∈ g.threads → c.Kept ∧ ∀ n ∈ ns, n.Inside

theorem Group.Kept.move {g : Group ε ν κ} (h : g.Kept) {phase : Phase ε}
    (hp : phase.Pending → g.tally.started.length < g.count)
    (hl : phase = .leaving none → g.tally.started.length = g.count) :
    Group.Kept { g with phase := phase } where
  started := h.started
  bound := h.bound
  pending := hp
  last := hl
  account := h.account
  failed := h.failed
  threads := h.threads

theorem Group.Kept.complete {g : Group ε ν κ} (h : g.Kept) {stop : Option ε}
    (hp : g.phase = .leaving stop)
    (ht : g.threads = []) (he : g.error.or stop = none) : g.tally.Complete g.count := by
  obtain ⟨herror, rfl⟩ := Option.or_eq_none_iff.mp he
  have hlast := h.last hp
  have haccount := h.account
  rw [ht, List.filterMap_nil, List.append_nil] at haccount
  have hstarted := hlast ▸ h.started
  refine ⟨hstarted, haccount.trans hstarted, fun x hx => ?_⟩
  cases hr : x.2 with
  | ok v => exact ⟨v, rfl⟩
  | error e =>
    rcases h.failed ⟨x, hx, e, hr⟩ with hne | ⟨t, hmem, -⟩
    · exact absurd herror hne
    · rw [ht] at hmem
      cases hmem

theorem Group.Kept.rethread {g : Group ε ν κ} (h : g.Kept) (ts : List (Thread ε ν κ))
    {pre post : List (Thread ε ν κ)} {t : Thread ε ν κ} (ht : g.threads = pre ++ t :: post)
    {finished : List (Nat × Except ε ν)}
    {error : Option ε}
    (haccount : (finished.map Prod.fst ++ ts.filterMap Thread.running?).Perm
      (g.tally.finished.map Prod.fst ++ t.running?.toList))
    (hfinished : ∀ x ∈ finished, ∀ e, x.2 = .error e → x ∈ g.tally.finished ∨ ∃ t' ∈ ts, t'.Failed)
    (herror : g.error ≠ none → error ≠ none)
    (hfailed : t.Failed → error ≠ none ∨ ∃ t' ∈ ts, t'.Failed)
    (hts : ∀ i c ns, .running i c ns ∈ ts → c.Kept ∧ ∀ n ∈ ns, n.Inside) :
    Group.Kept { g with
      threads := pre ++ (ts ++ post), error := error,
      tally := { g.tally with finished := finished } } where
  started := h.started
  bound := h.bound
  pending := h.pending
  last := h.last
  account := by
    have hold := h.account
    have hcons : (t :: post).filterMap Thread.running? = t.running?.toList ++
      post.filterMap Thread.running? := by
      cases t <;> rfl
    rw [ht, List.filterMap_append, hcons] at hold
    refine List.Perm.trans ?_ hold
    change (finished.map Prod.fst ++ (pre ++ (ts ++ post)).filterMap Thread.running?).Perm _
    rw [List.filterMap_append, List.filterMap_append]
    refine (List.perm_append_comm_assoc _ _ _).trans
      (List.Perm.trans ?_ (List.perm_append_comm_assoc _ _ _))
    rw [← List.append_assoc (finished.map Prod.fst),
      ← List.append_assoc (g.tally.finished.map Prod.fst)]
    exact (haccount.append_right _).append_left _
  failed := by
    rintro ⟨x, hx, e, he⟩
    rcases hfinished x hx e he with hx | ⟨t', hmem, hf⟩
    · rcases h.failed ⟨x, hx, e, he⟩ with hne | ⟨t', hmem, hf⟩
      · exact .inl (herror hne)
      · rw [ht] at hmem
        simp only [List.mem_append, List.mem_cons] at hmem ⊢
        rcases hmem with hmem | rfl | hmem
        · exact .inr ⟨t', .inl hmem, hf⟩
        · exact (hfailed hf).imp_right fun ⟨u, hu, huf⟩ => ⟨u, .inr (.inl hu), huf⟩
        · exact .inr ⟨t', .inr (.inr hmem), hf⟩
    · exact .inr ⟨t', by simp [hmem], hf⟩
  threads i c ns hmem := by
    simp only [List.mem_append] at hmem
    rcases hmem with hmem | hmem | hmem
    · exact h.threads i c ns (by simp [ht, hmem])
    · exact hts i c ns hmem
    · exact h.threads i c ns (by simp [ht, hmem])

theorem Group.Kept.step {g g' : Group ε ν κ} {e : Effect ε ν} (h : g.Kept)
    (hs : g.Step T closed ticket e g') : e.Kept ∧ g'.Kept := by
  cases hs with
  | refuse => exact ⟨nofun, h.move nofun nofun⟩
  | letIn => exact ⟨trivial, h.move nofun nofun⟩
  | last _ hn => exact ⟨trivial, h.move nofun fun _ => hn⟩
  | ask _ hn => exact ⟨trivial, h.move (fun _ => hn) nofun⟩
  | interrupt | abandon | giveUp | putBack => exact ⟨trivial, h.move nofun nofun⟩
  | grant hp | seeOpen hp | seeClosed hp =>
    exact ⟨trivial, h.move (fun _ => h.pending (by rw [hp]; trivial)) nofun⟩
  | leave hp ht => exact ⟨fun he => h.complete hp ht he, h.move nofun nofun⟩
  | start hp =>
    refine ⟨trivial, Tally.perm_start h.started, h.pending (by rw [hp]; trivial), nofun,
      nofun, ?_, ?_, ?_⟩
    · exact (List.perm_middle).trans (h.account.cons _)
    · intro hf
      rcases h.failed hf with he | ⟨t, ht, hfailed⟩
      · exact .inl he
      · exact .inr ⟨t, List.mem_cons_of_mem _ ht, hfailed⟩
    · intro i c ns hmem
      rcases List.mem_cons.mp hmem with he | hmem
      · obtain ⟨rfl, rfl, rfl⟩ := Thread.running.inj he
        exact ⟨trivial, nofun⟩
      · exact h.threads i c ns hmem
  | @run pre post i c c' ns ns' _ ht hr =>
    obtain ⟨hc, hns⟩ := h.threads i c ns (by simp [ht])
    obtain ⟨he, hc', hns'⟩ := hr.kept hc hns
    refine ⟨he, h.rethread [.running i c' ns'] ht (.refl _) (fun x hx _ _ => .inl hx) id
      False.elim ?_⟩
    intro j d ms hmem
    obtain ⟨rfl, rfl, rfl⟩ := Thread.running.inj (List.mem_singleton.mp hmem)
    exact ⟨hc', hns'⟩
  | @ret pre post i c r ht _ =>
    refine ⟨trivial, h.rethread [.returned i r] ht ?_ (fun x hx e he => ?_) id False.elim (by simp)⟩
    · change (i :: (g.tally.finished.map Prod.fst ++ [])).Perm
        (g.tally.finished.map Prod.fst ++ [i])
      rw [List.append_nil]
      exact (List.perm_append_singleton i _).symm
    · rcases List.mem_cons.mp hx with rfl | hx
      · obtain rfl : r = .error e := he
        exact .inr ⟨_, List.mem_singleton_self _, trivial⟩
      · exact .inl hx
  | @release pre post i r ht =>
    refine ⟨trivial, h.rethread [.released i r] ht (.refl _) (fun x hx _ _ => .inl hx) id
      (fun hf => .inr ⟨_, List.mem_singleton_self _, ?_⟩) (by simp)⟩
    cases r with
    | ok => exact hf
    | error => trivial
  | @record pre post i r ht =>
    refine ⟨trivial, h.rethread [] ht (.refl _) (fun x hx _ _ => .inl hx) (fun he => ?_)
      (fun hf => .inl ?_) nofun⟩
    · simp [he]
    · cases r with
      | ok => exact hf.elim
      | error => simp [failure?]

/-! ## Systems -/

namespace System

variable {p : Pool} {s s' : System ε ν κ}

structure Kept (p : Pool) (s : System ε ν κ) : Prop where
  size : s.pool.size = p.size
  permits : s.free + s.held = p.size
  flag : ∀ c ∈ s.closers, c.Begun → s.pool.closed = true
  still : ∀ c ∈ s.closers, c.Through → ∀ g ∈ s.groups, g.Still
  groups : ∀ g ∈ s.groups, g.Kept
  returns : ∀ r ∈ s.returns, r.error = none → r.tally.Complete r.count

theorem kept_idle (p : Pool) : Kept p (idle p : System ε ν κ) :=
  ⟨rfl, rfl, nofun, nofun, nofun, nofun⟩

theorem closed_apply (e : Effect ε ν) (h : s.pool.closed = true ∨ e = .close) :
    (s.apply e).pool.closed = true := by
  rcases h with h | rfl
  · cases e <;> first | exact h | rfl
  · rfl

theorem returns_apply {e : Effect ε ν} (h : ∀ r ∈ s.returns, r.error = none →
    r.tally.Complete r.count)
    (he : e.Kept) : ∀ r ∈ (s.apply e).returns, r.error = none → r.tally.Complete r.count := by
  cases e with
  | returns r => exact List.forall_mem_cons.mpr ⟨he, h⟩
  | _ => exact h

theorem Kept.still_of_free (h : Kept p s) (hf : p.size ≤ s.free) : ∀ g ∈ s.groups, g.Still := by
  intro g hg
  have hheld : s.held = 0 := by
    have := h.permits
    omega
  have hgroups := (Nat.add_eq_zero_iff.mp hheld).1
  exact Group.still_of_permits
    (List.sum_eq_zero_iff_forall_eq_nat.mp hgroups _ (List.mem_map_of_mem hg))

theorem forall_mem_replace {α : Type} {P : α → Prop} {xs pre post : List α} {x y : α}
    (hx : xs = pre ++ x :: post) (h : ∀ z ∈ xs, P z) (hy : P y) : ∀ z ∈ pre ++ y :: post, P z := by
  subst hx
  simp only [List.forall_mem_append, List.forall_mem_cons] at h ⊢
  exact ⟨h.1, hy, h.2.2⟩

theorem Kept.step (h : Kept p s) {e : Effect ε ν} (hs : s.Step T e s') : Kept p s' := by
  obtain ⟨hsize, hbalance⟩ := hs.balance
  have hpermits := hbalance.trans h.permits
  cases hs with
  | @group pre post g g' e hg hs _ =>
    have hmem : g ∈ s.groups := by simp [hg]
    obtain ⟨he, hg'⟩ := (h.groups g hmem).step hs
    refine ⟨hsize.trans h.size, hpermits, ?_, ?_, forall_mem_replace hg h.groups hg',
      returns_apply h.returns he⟩
    · intro c hc hb
      exact closed_apply e (.inl (h.flag c (by simpa using hc) hb))
    · intro c hc ht
      have hc : c ∈ s.closers := by simpa using hc
      have hclosed := h.flag c hc ht.begun
      rw [hclosed] at hs
      exact forall_mem_replace hg (h.still c hc ht) ((h.still c hc ht g hmem).step hs).1
  | @closer pre post c c' e hc hs ha =>
    have hmem : c ∈ s.closers := by simp [hc]
    have he : e.Kept := by cases hs <;> trivial
    refine ⟨hsize.trans h.size, hpermits, ?_, ?_, by simpa using h.groups,
      returns_apply h.returns he⟩
    · refine forall_mem_replace hc (fun d hd hb => closed_apply e
        (.inl (h.flag d hd hb))) fun hb => ?_
      exact closed_apply e ((hs.begun hb).imp_left (h.flag c hmem))
    · rw [groups_apply]
      refine forall_mem_replace hc h.still fun ht => ?_
      rcases hs.through ht with ht | ⟨t, rfl⟩
      · exact h.still c hmem ht
      · exact h.still_of_free (h.size ▸ ha.1)

theorem Kept.arrives (h : Kept p s) (ha : s.Arrives s') : Kept p s' := by
  obtain ⟨hpool, hbalance⟩ := ha.balance
  have hpermits := hbalance.trans h.permits
  cases ha with
  | scatter count task =>
    have hstill : ∀ c ∈ s.closers, c.Through → Group.Still { count, task : Group ε ν κ } :=
      fun _ _ _ => ⟨nofun, nofun⟩
    refine ⟨h.size, hpermits, h.flag, fun c hc ht => ?_, ?_, h.returns⟩
    · exact List.forall_mem_cons.mpr ⟨hstill c hc ht, h.still c hc ht⟩
    · exact List.forall_mem_cons.mpr
        ⟨⟨.refl _, Nat.zero_le _, nofun, nofun, .refl _, nofun, nofun⟩, h.groups⟩
  | close =>
    exact ⟨h.size, hpermits, List.forall_mem_cons.mpr ⟨False.elim, h.flag⟩,
      List.forall_mem_cons.mpr ⟨False.elim, h.still⟩, h.groups, h.returns⟩
  | @cancel pre post g hg =>
    have hmem : g ∈ s.groups := by simp [hg]
    have hkept := h.groups g hmem
    refine ⟨h.size, hpermits, h.flag, fun c hc ht => ?_,
      forall_mem_replace hg h.groups ?_, h.returns⟩
    · have hstill := h.still c hc ht
      exact forall_mem_replace hg hstill ⟨(hstill g hmem).phase, (hstill g hmem).threads⟩
    · exact ⟨hkept.started, hkept.bound, hkept.pending, hkept.last, hkept.account, hkept.failed,
        hkept.threads⟩

theorem Kept.next (h : Kept p s) (hn : Next T s s') : Kept p s' := by
  rcases hn with ⟨e, hs⟩ | ha
  · exact h.step hs
  · exact h.arrives ha

theorem Kept.steps (h : Kept p s) (hs : Relation.ReflTransGen (Next T) s s') : Kept p s' := by
  induction hs with
  | refl => exact h
  | tail _ hn ih => exact ih.next hn

theorem Reachable.kept (h : Reachable T p s) : Kept p s := (kept_idle p).steps h

theorem Kept.length_running_le (h : Kept p s) : s.running.length ≤ p.size := by
  have hrun := s.length_running_le
  have hpermits := h.permits
  unfold held at hpermits
  omega

theorem returned_of_next (h : .returned true ∈ s.closers) (hn : Next T s s') :
    .returned true ∈ s'.closers := by
  rcases hn with ⟨e, hs⟩ | ha
  · cases hs with
    | group => simpa using h
    | closer hc hs =>
      rw [hc] at h
      rcases List.mem_append.mp h with h | h
      · exact List.mem_append_left _ h
      · rcases List.mem_cons.mp h with rfl | h
        · cases hs
        · exact List.mem_append_right _ (List.mem_cons_of_mem _ h)
  · cases ha with
    | scatter | cancel => exact h
    | close => exact List.mem_cons_of_mem _ h

theorem Kept.drained (h : Kept p s) (hc : .returned true ∈ s.closers) :
    s.running = [] ∧ ∀ e s', s.Step T e s' → e ≠ .start := by
  have hstill := h.still _ hc trivial
  constructor
  · refine List.flatMap_eq_nil_iff.mpr fun g hg => List.filter_eq_nil_iff.mpr fun t ht => ?_
    obtain ⟨i, r, rfl⟩ := (hstill g hg).threads t ht
    exact Bool.false_ne_true
  · intro e s' hs
    cases hs with
    | @group pre post g g' _ hg hs =>
      rw [h.flag _ hc trivial] at hs
      exact ((hstill g (by simp [hg])).step hs).2
    | closer _ hs => cases hs <;> exact nofun

end System

end RealScript.Pool
