import RealScript.Proofs.Machine.Cancellation
import RealScript.Proofs.Machine.Safety

/-! # How deep calls nest

The body of a function runs at a depth that is the number of calls around it, those of native
functions among them. A call that would take a body deeper than the machine allows fails in the name
of the function that it calls, and the failure comes out of all calls around it as it is. A run that
is never that deep is the same under every larger bound.
-/

namespace RealScript

@[simp] theorem Activation.depth_receive (act : Activation) (v : Value) :
    (act.receive v).depth = act.depth := by
  unfold receive
  split <;> rfl

def Point.At (most : Int) (d : Nat) : Point → Prop
  | .call _ _ e _ | .native _ e _ _ => e = d
  | .code act _ => act.depth = d ∧ d ≤ most
  | .back _ _ | .fail _ _ => True

def Point.TooDeep (most : Int) : Point → Prop
  | .call f _ d _ => f.native = false ∧ most < d
  | _ => False

namespace Machine

variable {m : Machine} {p q : Point} {ps around : List Point}

def within (m : Machine) (most : Int) : Machine := { m with maxDepth := most }

/-- A run comes to a point while the calls made at some points, the outermost first, are open. -/
inductive Nests (m : Machine) : Point → List Point → Point → Prop where
  | level {p q : Point} {ps : List Point} : m.Passes p ps q → Nests m p [] q
  | enter {p q r : Point} {f : Function} {args : List Value} {d : Nat} {w : World}
      {next : Except RuntimeError Value → World → Point} {ps around : List Point} :
        m.Passes p ps q →
      m.advance q = .call f args d w next → Nests m (.call f args d w) around r →
      Nests m p (q :: around) r

theorem Nests.visits (h : m.Nests p around q) : ∃ ps, m.Visits p ps q := by
  induction h with
  | level h => exact ⟨_, .level h⟩
  | enter h hc _ ih =>
    obtain ⟨qs, hv⟩ := ih
    exact ⟨_, .enter h hc hv⟩

theorem depth_of_turn {act act' : Activation} {w w' : World} (h : m.turn act w = .go act' w') :
    act'.depth = act.depth := by
  unfold turn at h
  split at h
  · simp only [transition] at h
    repeat' split at h
    all_goals cases h
    rfl
  · rename_i i _ _
    cases he : i.effect act.frame w.globals <;> rw [he] at h
    case value | jump =>
      obtain ⟨rfl, -⟩ := Turn.go.inj h
      simp
    case call =>
      simp only [enact] at h
      split at h <;> cases h
    all_goals cases h

theorem at_of_call {f : Function} {args : List Value} {d e : Nat} {w : World}
    {next : Except RuntimeError Value → World → Point} (hp : p.At m.maxDepth d)
    (h : m.advance p = .call f args e w next) :
    e = d + 1 ∧ ∀ x w', (next x w').At m.maxDepth d := by
  rcases call_cases h with ⟨act, rfl, -, rfl, rfl⟩ | ⟨g, e, r, after, rfl, -, -, rfl, rfl⟩
  · obtain ⟨rfl, hle⟩ := hp
    refine ⟨rfl, fun x w' => ?_⟩
    cases x with
    | ok v => exact ⟨Activation.depth_receive act v, hle⟩
    | error => trivial
  · obtain rfl : e = d := hp
    exact ⟨rfl, fun _ _ => rfl⟩

theorem contract_depth : m.Contract (fun _ => False) fun d p => p.At m.maxDepth d where
  go d p p' hp _ ha := by
    cases p with
    | call f args e w =>
      obtain rfl : e = d := hp
      simp only [advance] at ha
      split at ha
      · split at ha <;> cases ha
        · trivial
        · rfl
      · split at ha
        · cases ha
          trivial
        · rename_i hle
          split at ha <;> rename_i hs <;> cases ha
          · trivial
          · obtain ⟨b, -, rfl⟩ := Option.map_eq_some_iff.mp hs
            exact ⟨rfl, Int.not_lt.mp hle⟩
    | code act w =>
      obtain ⟨rfl, hle⟩ := hp
      simp only [advance] at ha
      split at ha <;> rename_i ht <;> cases ha
      · exact ⟨depth_of_turn ht, hle⟩
      · trivial
      · trivial
    | native f e a w =>
      obtain rfl : e = d := hp
      cases acts_of_advanceNative ha <;> trivial
    | back | fail => cases ha
  call d p f args e w next hp _ ha := by
    obtain ⟨he, hnext⟩ := at_of_call hp ha
    exact ⟨d + 1, he, fun r x _ _ => hnext x r.world⟩

theorem Nests.at {d : Nat} (h : m.Nests p around q) (hp : p.At m.maxDepth d) :
    q.At m.maxDepth (d + around.length) := by
  induction h generalizing d with
  | level h => exact contract_depth.passes h (fun _ _ => id) hp
  | @enter p q r f args e w next ps around h hc _ ih =>
    have hq := contract_depth.passes h (fun _ _ => id) hp
    obtain ⟨rfl, -⟩ := at_of_call hq hc
    have hr := ih (d := d + 1) rfl
    rwa [List.length_cons, Nat.add_comm around.length 1, ← Nat.add_assoc]

theorem comes_of_tooDeep (hm : m.Forwards) (hp : p.Forwards) {g : Function} {args : List Value}
    {d : Nat} {u : World}
    (hv : m.Visits p ps (.call g args d u)) (hg : g.native = false) (hd : m.maxDepth < d) :
    m.Comes p (.error (.runtime ⟨g.name, .callDepth⟩) u) := by
  have ha : m.advance (.call g args d u) = .go (.fail (.runtime ⟨g.name, .callDepth⟩) u) := by
    simp only [advance, hg, Bool.false_eq_true, if_false, if_pos hd]
  exact hv.comes (.go ⟨0, fun _ _ => rfl⟩ ha) fun _ _ => ⟨hm, hp⟩

theorem advance_within {most : Int} (hle : m.maxDepth ≤ most) (hp : ¬ p.TooDeep m.maxDepth) :
    (m.within most).advance p = m.advance p := by
  cases p with
  | call f args d w =>
    have hd (hf : ¬ f.native = true) : ¬ m.maxDepth < d := fun hlt => hp
      ⟨Bool.not_eq_true _ ▸ hf, hlt⟩
    simp only [advance]
    split
    · rfl
    · rename_i hf
      have hlarge : ¬ most < (d : Int) := fun hlt => hd hf (Int.lt_of_le_of_lt hle hlt)
      rw [if_neg (hd hf), if_neg (show ¬ (m.within most).maxDepth < (d : Int) from hlarge)]
  | code act w => rfl
  | native f d a w =>
    cases a with
    | attempt r => cases r <;> rfl
    | _ => rfl
  | back | fail => rfl

section Ends

variable {f : Function} {args : List Value} {d : Nat} {w : World}
  {r : EStateM.Result Fault World Value}

theorem ends_iff_comes (hd : ¬ m.maxDepth < d) :
    m.Ends f args d w r ↔ Finished r ∧ m.Comes (.call f args d w) r := by
  cases hf : f.native with
  | false =>
    refine ⟨fun ⟨hr, n, hn⟩ => ⟨hr, n + 1, fun k hk => ?_⟩, fun ⟨hr, h⟩ => ends_of_comes hf hr h⟩
    have hrun : m.invoke (n + 1) f args d w = r := by rw [invoke_code _ _ _ hf, hn]
    exact (invoke_mono hk (hrun ▸ hr)).trans hrun
  | true =>
    have hrun (n : Nat) : m.run (n + 1) f args d w = m.invoke n f args d w := by
      rw [run, if_neg hd, if_pos hf]
    constructor
    · rintro ⟨hr, n, hn⟩
      cases n with
      | zero =>
        rw [run] at hn
        exact (hn ▸ hr : Finished (.error .outOfFuel w)) |>.elim rfl
      | succ n =>
        rw [hrun] at hn
        exact ⟨hr, n, fun k hk => (invoke_mono hk (hn ▸ hr)).trans hn⟩
    · rintro ⟨hr, n, hn⟩
      exact ⟨hr, n + 1, (hrun n).trans (hn n (Nat.le_refl n))⟩

theorem Comes.stopsAt (h : m.Comes (.call f args d w) r) : m.StopsAt (.call f args d w) r := by
  obtain ⟨n, hn⟩ := h
  have hs := (stopsAt_fuel (m := m) n).2.2 f args d w
  rwa [show m.invoke n f args d w = r from hn n (Nat.le_refl n)] at hs

theorem ends_within_iff {most : Int} (hd : ¬ m.maxDepth < d) (hle : m.maxDepth ≤ most)
    (hn : ¬ m.Meets (.call f args d w) (Point.TooDeep m.maxDepth)) :
    (m.within most).Ends f args d w r ↔ m.Ends f args d w r := by
  have hsame : ∀ x, ¬ x.TooDeep m.maxDepth → (m.within most).advance x = m.advance x :=
    fun _ hx => advance_within hle hx
  have hmost : ¬ (m.within most).maxDepth < d := fun hlt => hd (Int.lt_of_le_of_lt hle hlt)
  rw [ends_iff_comes hd, ends_iff_comes hmost]
  constructor
  · rintro ⟨hr, h⟩
    have hn' : ¬ (m.within most).Meets (.call f args d w) (Point.TooDeep m.maxDepth) :=
      fun hm => hn ((meets_transfer_iff hsame).mp hm)
    exact ⟨hr, h.stopsAt.transfer hr (fun x hx => (hsame x hx).symm) hn'⟩
  · rintro ⟨hr, h⟩
    exact ⟨hr, h.stopsAt.transfer hr hsame hn⟩

end Ends

/-- The depth of calls is bounded and not seen otherwise, as long as native functions pass on the
errors of what they call. From its entry on, a run comes to a call at a depth that is the number of
open calls, and so for a body, which runs only as deep as the machine allows. The call of a body
that would be deeper ends the run with a failure in the name of its function. A run that does not
end so is the same under every larger bound, point by point. -/
theorem depth_bounded (m : Machine) (hm : m.Forwards) (f : Function) (w : World) :
    (m.maxDepth < 0 → m.Ends f [] 0 w (.error (.runtime ⟨f.name, .callDepth⟩) w)) ∧
    (0 ≤ m.maxDepth → (∀ around act u, m.Nests (.call f [] 0 w) around (.code act u) →
        act.depth = around.length ∧ (act.depth : Int) ≤ m.maxDepth) ∧
      (∀ around g args d u, m.Nests (.call f [] 0 w) around (.call g args d u) → d = around.length ∧
        (g.native = false → m.maxDepth < d →
          m.Ends f [] 0 w (.error (.runtime ⟨g.name, .callDepth⟩) u))) ∧
      ((∀ g u, ¬ m.Ends f [] 0 w (.error (.runtime ⟨g, .callDepth⟩) u)) →
      ∀ most, m.maxDepth ≤ most → (∀ r, (m.within most).Ends f [] 0 w r ↔ m.Ends f [] 0 w r) ∧
        ∀ ps q, (m.within most).Visits (.call f [] 0 w) ps q ↔ m.Visits
        (.call f [] 0 w) ps q)) := by
  refine ⟨fun hneg => ⟨nofun, 1, ?_⟩, fun hmost => ?_⟩
  · rw [run, if_pos (show m.maxDepth < (0 : Nat) from hneg)]
    rfl
  have hd : ¬ m.maxDepth < (0 : Nat) := Int.not_lt.mpr hmost
  have hstart : (Point.call f [] 0 w).At m.maxDepth 0 := rfl
  have hdeep {g : Function} {args : List Value} {d : Nat} {u : World} {ps : List Point}
      (hv : m.Visits (.call f [] 0 w) ps (.call g args d u)) (hg : g.native = false)
      (hlt : m.maxDepth < d) : m.Ends f [] 0 w (.error (.runtime ⟨g.name, .callDepth⟩) u) :=
    (ends_iff_comes hd).mpr ⟨nofun, comes_of_tooDeep hm (p := .call f [] 0 w) trivial hv hg hlt⟩
  refine ⟨fun around act u h => ?_, fun around g args d u h => ⟨?_, fun hg hlt => ?_⟩,
    fun hno most hle => ?_⟩
  · obtain ⟨hdepth, hbound⟩ := h.at hstart
    rw [Nat.zero_add] at hdepth hbound
    exact ⟨hdepth, hdepth ▸ hbound⟩
  · have hcall : d = 0 + around.length := h.at hstart
    rwa [Nat.zero_add] at hcall
  · obtain ⟨ps, hv⟩ := h.visits
    exact hdeep hv hg hlt
  · have hnone : ¬ m.Meets (.call f [] 0 w) (Point.TooDeep m.maxDepth) := by
      rintro ⟨ps, q, hv, hq, -⟩
      cases q with
      | call g args d u => exact hno _ _ (hdeep hv hq.1 hq.2)
      | _ => exact hq
    have hsame : ∀ x, ¬ x.TooDeep m.maxDepth → (m.within most).advance x = m.advance x :=
      fun _ hx => advance_within hle hx
    refine ⟨fun r => ends_within_iff hd hle hnone, fun ps q => ⟨fun hv => ?_, fun hv => ?_⟩⟩
    · have hps := hv.meets.resolve_right fun hm => hnone ((meets_transfer_iff hsame).mp hm)
      exact hv.transfer fun x hx => (hsame x (hps x hx)).symm
    · have hps := hv.meets.resolve_right hnone
      exact hv.transfer fun x hx => hsame x (hps x hx)

end Machine

def spinFunction : Function :=
  let start : BlockRef := ⟨0, 0, "entry"⟩
  { ref := ⟨0, "spin", [], .real⟩
    paramNames := []
    registers := 1
    emitted := 2
    labels := ["entry"]
    blocks := [⟨start, [(Draft.call ⟨0, "spin", [], .real⟩ []).instr ⟨0, 0, some 0, .real⟩ start,
        (Draft.ret (some (.result ⟨0, 0, some 0, .real⟩))).instr ⟨0, 1, none, .void⟩ start]⟩] }

def spinMachine : Machine :=
  { module := { name := "spin", store := #[spinFunction] }, natives := [], maxDepth := 1 }

/-- A function that calls itself fails at the second call if one is allowed. The relay, which calls
a native function, ends alike under every bound that allows its entry. -/
theorem depth_bounded_spin :
    (∃ around, spinMachine.Nests (.call spinFunction [] 0 {}) around (.call spinFunction [] 2 {}) ∧
      spinMachine.Ends spinFunction [] 0 {} (.error (.runtime ⟨"spin", .callDepth⟩) {})) ∧
    ∃ v w, (relayMachine.within 0).Ends relayFunction [] 0 {} (.ok v w) ∧
      ∀ most, 0 ≤ most → (relayMachine.within most).Ends relayFunction [] 0 {} (.ok v w) := by
  constructor
  · have hnests : spinMachine.Nests (.call spinFunction [] 0 {}) _ (.call spinFunction [] 2 {}) :=
      .enter (.go rfl (.refl _)) rfl (.enter (.go rfl (.refl _)) rfl (.level (.refl _)))
    have hforwards : spinMachine.Forwards := fun _ _ _ h => by cases h
    have hbounded := (spinMachine.depth_bounded hforwards spinFunction {}).2 (by decide)
    exact ⟨_, hnests, (hbounded.2.1 _ _ _ _ _ hnests).2 rfl (by decide)⟩
  · have hends : (relayMachine.within 0).Ends relayFunction [] 0 {}
        (.ok (.number 1) (World.noteCall {} "one" [])) := ⟨trivial, 20, rfl⟩
    refine ⟨_, _, hends, fun most hmost => ?_⟩
    have hno : ∀ g u, ¬ (relayMachine.within 0).Ends relayFunction [] 0 {}
        (.error (.runtime ⟨g, .callDepth⟩) u) := fun _ _ h => nomatch hends.unique h
    have hforwards : (relayMachine.within 0).Forwards := by
      intro name native args h
      obtain rfl : (fun _ => .done (.number 1)) = native := by
        simp only [Machine.native?, relayMachine, Machine.within, List.lookup] at h
        split at h
        · exact Option.some.inj h
        · cases h
      trivial
    have hbounded := ((relayMachine.within 0).depth_bounded hforwards relayFunction {}).2
      (Int.le_refl 0)
    exact ((hbounded.2.2 hno most hmost).1 _).mpr hends

end RealScript
