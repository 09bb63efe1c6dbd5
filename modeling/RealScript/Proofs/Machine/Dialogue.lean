import RealScript.Proofs.Machine.Likeness

/-! # What a run says to the user

In an interactive session the answers to prompts are shared: those that a program does not take are
left for the session. A program takes an answer only by a call of `read`, which shows in the list of
calls. Without such a call a run leaves all answers and asks for none.
-/

namespace RealScript

def Event.isDialogue : Event → Bool
  | .prompt _ | .history _ => true
  | _ => false

def World.dialogue (w : World) : List Event := w.events.toList.filter Event.isDialogue

def World.Reads (u w : World) : Prop := ∃ args, ("read", args) ∈ w.calls.toList.drop u.calls.size

/-- The way from one world to another, on which no answer is taken without a call of `read`. -/
structure World.Follows (u w : World) : Prop where
  calls : u.calls.toList <+: w.calls.toList
  source : u.source = .prompts → w.source = .prompts
  quiet : u.source = .prompts → ¬ u.Reads w → w.answers = u.answers ∧ w.dialogue = u.dialogue

theorem World.follows_of_eq {u w : World} (hcalls : w.calls = u.calls)
    (hsource : w.source = u.source)
    (hanswers : w.answers = u.answers) (hdialogue : w.dialogue = u.dialogue) : u.Follows w :=
  ⟨hcalls ▸ List.prefix_rfl, fun h => hsource.trans h, fun _ _ => ⟨hanswers, hdialogue⟩⟩

namespace World

variable {u v w : World}

theorem Reads.mono (h : u.Reads v) (hvw : v.calls.toList <+: w.calls.toList) : u.Reads w := by
  obtain ⟨args, h⟩ := h
  obtain ⟨more, hvw⟩ := hvw
  exact ⟨args, hvw ▸ List.drop_append ▸ List.mem_append_left _ h⟩

theorem Reads.of_later (h : v.Reads w) (huv : u.calls.toList <+: v.calls.toList) : u.Reads w := by
  obtain ⟨args, h⟩ := h
  have hle : u.calls.size ≤ v.calls.size := by simpa using huv.length_le
  exact ⟨args, (List.drop_sublist_drop_left _ hle).subset h⟩

theorem Follows.refl (w : World) : w.Follows w := follows_of_eq rfl rfl rfl rfl

theorem Follows.trans (huv : u.Follows v) (hvw : v.Follows w) : u.Follows w where
  calls := huv.calls.trans hvw.calls
  source h := hvw.source (huv.source h)
  quiet h hno := by
    have hv := huv.quiet h fun hr => hno (hr.mono hvw.calls)
    have hw := hvw.quiet (huv.source h) fun hr => hno (hr.of_later huv.calls)
    exact ⟨hw.1.trans hv.1, hw.2.trans hv.2⟩

theorem dialogue_emit (w : World) {e : Event} (h : e.isDialogue = false) :
    (w.emit e).dialogue = w.dialogue := by
  simp [dialogue, emit, h]

theorem follows_emit (w : World) {e : Event} (h : e.isDialogue = false) : w.Follows (w.emit e) :=
  follows_of_eq rfl rfl rfl (w.dialogue_emit h)

theorem calls_inputWords (w : World) : w.inputWords.2.calls = w.calls ∧
    (w.source = .prompts → w.inputWords.2.source = .prompts) := by
  obtain ⟨-, source, answers, -, -, -, -, -⟩ := w
  cases source with
  | stream => exact ⟨rfl, id⟩
  | prompts => rcases answers with - | ⟨- | - | -, rest⟩ <;> exact ⟨rfl, id⟩

end World

def Action.Mute : Action → Prop
  | .done _ | .fail _ | .raise _ => True
  | .attempt _ _ next => ∀ x, (next x).Mute
  | .proceed next | .enterPool next | .write _ next | .leave _ next => next.Mute
  | .read _ => False

def Point.Mute : Point → Prop
  | .native _ _ a _ => a.Mute
  | _ => True

structure Point.Yields (p p' : Point) : Prop where
  calls : p.world.calls.toList <+: p'.world.calls.toList
  source : p.world.source = .prompts → p'.world.source = .prompts
  quiet : p.Mute → p.world.source = .prompts →
    p'.world.answers = p.world.answers ∧ p'.world.dialogue = p.world.dialogue
  mute : p.Mute → p.world.Reads p'.world ∨ p'.Mute

theorem Point.Yields.inside {p p' : Point} {globals : Array Value} {clock : Nat}
    (hw : p'.world = { p.world with globals := globals, clock := clock }) (hm : p.Mute → p'.Mute) :
    p.Yields p' where
  calls := by simp only [hw, List.prefix_rfl]
  source h := by rwa [hw]
  quiet _ _ := by simp [hw, World.dialogue]
  mute h := .inr (hm h)

namespace Machine

variable {m : Machine} {p p' : Point}

theorem Acts.yields {f : Function} {d : Nat} {a : Action} {w : World} (h : m.Acts f d w a p) :
    (Point.native f d a w).Yields p := by
  have hin := w.calls_inputWords
  cases h with
  | proceed | enter => exact .inside rfl id
  | missing | misfit | unbound => exact .inside rfl fun h => h _
  | write => exact ⟨List.prefix_rfl, id, fun _ _ => ⟨rfl, w.dialogue_emit rfl⟩, .inr⟩
  | unread hw | read hw =>
    rw [hw] at hin
    exact ⟨hin.1 ▸ List.prefix_rfl, hin.2, False.elim, False.elim⟩
  | leave rest next =>
    cases hs : w.source with
    | stream =>
      exact ⟨by simp [Point.world, World.leaveInput, hs], by simp [Point.world, hs],
        by simp [Point.world, hs], .inr⟩
    | prompts =>
      have hw : w.leaveInput rest = { w with globals := w.globals, clock := w.clock } := by
        simp [World.leaveInput, hs]
      exact .inside hw id
  | _ => exact .inside rfl fun _ => trivial

def Discreet (m : Machine) : Prop :=
  ∀ name native args, m.native? name = some native → name ≠ "read" → (native args).Mute

theorem yields_advance (hm : m.Discreet) (h : m.advance p = .go p') : p.Yields p' := by
  cases p with
  | call f args d w =>
    simp only [advance] at h
    split at h
    · split at h <;> rename_i hn <;> cases h
      · exact .inside rfl fun _ => trivial
      · refine ⟨by simp [Point.world, World.noteCall], id, fun _ _ => ⟨rfl, rfl⟩, fun _ => ?_⟩
        by_cases hread : f.name = "read"
        · exact .inl ⟨args, by simp [Point.world, World.noteCall, hread]⟩
        · exact .inr (hm _ _ args hn hread)
    · repeat' split at h
      all_goals
        cases h
        exact .inside rfl fun _ => trivial
  | code act w =>
    have hw := m.world_turn act w
    simp only [advance] at h
    split at h <;> rename_i ht <;> rw [ht] at hw <;> cases h
    · obtain ⟨globals, clock, rfl⟩ := hw
      exact .inside rfl fun _ => trivial
    · exact .inside rfl fun _ => trivial
    · obtain ⟨globals, clock, rfl⟩ := hw
      exact .inside rfl fun _ => trivial
  | native f d a w => exact (acts_of_advanceNative h).yields
  | back | fail => cases h

theorem contract_follows (hm : m.Discreet) (start : World) :
    m.Contract (fun _ => False) fun (u : World) p => start.Follows u ∧ u.Follows p.world ∧
      (u.Reads p.world ∨ p.Mute) := by
  constructor
  · rintro u p p' ⟨hstart, hf, hread⟩ - ha
    have hy := yields_advance hm ha
    refine ⟨hstart, ?_⟩
    rcases hread with hread | hmute
    · have hread' := hread.mono hy.calls
      exact ⟨⟨hf.calls.trans hy.calls, fun h => hy.source (hf.source h),
        fun _ hno => (hno hread').elim⟩,
        .inl hread'⟩
    · refine ⟨hf.trans ⟨hy.calls, hy.source, fun h _ => hy.quiet hmute h⟩, ?_⟩
      exact (hy.mute hmute).imp_left fun h => h.of_later hf.calls
  · -- A call is seen from the world where it is made, and what it adds is added to what was before.
    rintro u p f args d w next ⟨hstart, hf, hread⟩ - ha
    rcases call_cases ha with ⟨act, rfl, -, -, rfl⟩ | ⟨g, e, r, after, rfl, -, -, -, rfl⟩
    · refine ⟨w, ⟨hstart.trans hf, .refl w, .inr trivial⟩, fun r x _ hr => ?_⟩
      cases x <;> exact ⟨hstart, hf.trans hr.2.1, .inr trivial⟩
    · exact ⟨w, ⟨hstart.trans hf, .refl w, .inr trivial⟩, fun r x _ hr =>
        ⟨hstart, hf.trans hr.2.1, hread.imp (·.mono hr.2.1.calls) fun h => h x⟩⟩

def worldOf : EStateM.Result Fault World Value → World
  | .ok _ w | .error _ w => w

theorem follows_of_stopsAt (hm : m.Discreet) {f : Function} {args : List Value}
    {d : Nat} {w : World}
    {r : EStateM.Result Fault World Value} (h : m.StopsAt (.call f args d w) r) :
    w.Follows (worldOf r) := by
  have hvisits {ps : List Point} {q : Point} (hv : m.Visits (.call f args d w) ps q) :
      w.Follows q.world := by
    obtain ⟨u, hstart, hq, -⟩ := (contract_follows hm w).visits hv (fun _ _ => id) (γ := w)
      ⟨.refl w, .refl w, .inr trivial⟩
    exact hstart.trans hq
  cases r with
  | ok v w' =>
    obtain ⟨ps, hp⟩ := h
    exact hvisits (.level hp)
  | error e w' =>
    cases e with
    | outOfFuel =>
      obtain ⟨ps, q, hv, rfl⟩ := h
      exact hvisits hv
    | runtime =>
      obtain ⟨ps, hp⟩ := h
      exact hvisits (.level hp)
    | missingOperand =>
      obtain ⟨ps, hv⟩ := h
      exact hvisits hv

theorem follows_run (hm : m.Discreet) (fuel : Nat) (f : Function) (args : List Value)
    (d : Nat) (w : World) :
    w.Follows (worldOf (m.run fuel f args d w)) := by
  cases hf : f.native with
  | false => exact follows_of_stopsAt hm ((stopsAt_fuel fuel).1 f args d w hf)
  | true =>
    cases fuel with
    | zero => exact .refl w
    | succ fuel =>
      rw [run, if_pos hf]
      by_cases hd : m.maxDepth < d
      · rw [if_pos hd]
        exact .refl w
      · rw [if_neg hd]
        exact follows_of_stopsAt hm ((stopsAt_fuel fuel).2.2 f args d w)

end Machine

end RealScript
