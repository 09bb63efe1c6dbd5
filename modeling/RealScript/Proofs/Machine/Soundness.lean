import RealScript.Proofs.Machine.Stores
import RealScript.Proofs.Machine.Typing

/-! # Runs of lawful code

Points of a run keep to their types, step by step. Functions that are none of the entries leave the
globals alone.
-/

namespace RealScript

variable {i : Instr} {is : List Instr}

variable {f : Function} {args : List Value} {k : Nat} {p : Point}

theorem World.expected_inputWords (w : World) (cause : RunCause)
    (h : w.inputWords.1 = .error cause) :
    cause.Expected := by
  obtain ⟨globals, source, answers, _, _, _, _, _⟩ := w
  cases source with
  | stream => cases h
  | prompts => rcases answers with _ | ⟨_ | _ | _, rest⟩ <;> cases h <;> trivial

/-- The point is at the last instruction of a function: the return behind its last statement. -/
def Point.Ends (p : Point) (f : FuncRef) : Prop :=
  ∃ act w i rest, p = .code act w ∧ act.function.ref = f ∧ act.rest = i :: rest ∧
    i.ref.index + 1 = act.function.emitted

namespace Setting

/-- A native function that keeps to the types of what it calls and of what it gives, and passes on
the errors that it gets. -/
def Honest (E : Setting) (globals : Array Value) (ret : Ty) : Action → Prop
  | .done v => E.Holds globals v ret
  | .fail cause => cause.Expected
  | .raise e => e.cause.Expected
  | .attempt none _ next => ∀ e, next (.error e) = .raise e
  | .attempt (some r) args next => E.module.Offers r ∧ E.Ready globals r.id ∧
      List.Forall₂ (E.Holds globals) args r.params ∧
        (∀ v, E.Holds globals v r.ret → Honest E globals ret (next (.ok v))) ∧
          ∀ e, next (.error e) = .raise e
  | .proceed next | .enterPool next | .write _ next | .leave _ next => Honest E globals ret next
  | .read next => ∀ words, Honest E globals ret (next words)

structure Sound (E : Setting) : Prop extends E.Lawful where
  natives : ∀ k f, E.module.function? k = some f → f.native = true →
    ∃ native, E.machine.native? f.name = some native ∧ ∀ globals args,
      List.Forall₂ (E.Holds globals) args f.ref.params → E.Honest globals f.ref.ret (native args)

structure Keeps (E : Setting) (γ : Function × World) (w : World) : Prop where
  globals : E.Globals w.globals
  still : (∀ n, γ.1.name ≠ Lowering.unitName n) → w.globals = γ.2.globals

structure Runs (E : Setting) (γ : Function × World) (act : Activation) (w : World) : Prop extends
    E.Keeps γ w where
  function : act.function = γ.1
  member : E.module.function? γ.1.id = some γ.1
  code : γ.1.native = false
  ready : E.Ready w.globals γ.1.id
  frame : ∃ ds, Standing γ.1.blocks ds act.rest act.next ∧ E.Fills w.globals γ.1 ds act.frame

def Allows (E : Setting) (γ : Function × World) : Point → Prop
  | .call f args _ w => γ = (f, w) ∧ E.module.function? f.id = some f ∧
      List.Forall₂ (E.Holds w.globals) args f.ref.params ∧ E.Ready w.globals f.id ∧
        E.Globals w.globals
  | .code act w => E.Runs γ act w
  | .native f _ a w => f = γ.1 ∧ E.Honest w.globals f.ref.ret a ∧ E.Globals w.globals ∧
      w.globals = γ.2.globals
  | .back v w => E.Holds w.globals v γ.1.ref.ret ∧ E.Keeps γ w
  | .fail e w => e.Expected ∧ E.Keeps γ w

/-- The point moves a missing function to a place that is not excused. -/
def Bad (E : Setting) (p : Point) : Prop := ∃ ψ φ, p.Moves ψ φ ∧ ¬ E.excused φ

variable {E : Setting} {γ : Function × World} {act : Activation} {w : World}

theorem not_bad (h : ∀ φ, E.excused φ) (p : Point) : ¬ E.Bad p := by
  rintro ⟨ψ, φ, -, hn⟩
  exact hn (h φ)

theorem Allows.globals {p : Point} (h : E.Allows γ p) : E.Globals p.world.globals := by
  cases p with
  | call => exact h.2.2.2.2
  | code => exact h.toKeeps.globals
  | native => exact h.2.2.1
  | back | fail => exact h.2.globals

theorem allows_call {r : FuncRef} (d : Nat)
    (ho : E.module.Offers r) (hf : E.module.function? r.id = some f) (hr : E.Ready w.globals r.id)
    (ha : List.Forall₂ (E.Holds w.globals) args r.params) (hg : E.Globals w.globals) :
    E.Allows (f, w) (.call f args d w) ∧ ∀ q x, q.outcome? = some x → E.Allows (f, w) q →
      q.world.globals = w.globals ∧ match x with
        | .ok v => E.Holds w.globals v r.ret
        | .error e => e.cause.Expected := by
  obtain ⟨⟨g, hg', href⟩, hname⟩ := ho
  cases hf.symm.trans hg'
  subst href
  refine ⟨⟨rfl, hf, ha, hr, hg⟩, fun q x hx hq => ?_⟩
  cases q with
  | back v w' =>
    cases hx
    have hstill := hq.2.still hname
    exact ⟨hstill, hstill ▸ hq.1⟩
  | fail e w' =>
    cases e <;> cases hx
    exact ⟨hq.2.still hname, hq.1⟩
  | _ => cases hx

theorem Runs.lawful (S : E.Sound) (h : E.Runs γ act w) : γ.1.Lawful E.module E.reach :=
  S.code γ.1.id γ.1 h.member h.code

theorem Runs.standing (h : E.Runs γ act w) (hr : act.rest = i :: is) :
    act.next = none ∧ ∃ ds, Standing γ.1.blocks ds
    (i :: is) none ∧ E.Fills w.globals γ.1 ds act.frame := by
  obtain ⟨ds, hs, hfills⟩ := h.frame
  rw [hr] at hs
  generalize act.next = next at hs
  have hn : next = none := by
    cases hs
    rfl
  subst hn
  exact ⟨rfl, ds, hs, hfills⟩

def Turns (E : Setting) (γ : Function × World) (act : Activation) (w : World) : Turn → Prop
  | .go act' w' => E.Runs γ act' w'
  | .call f args => (∀ n, f.name ≠ Lowering.unitName n) ∧
      E.Allows (f, w) (.call f args (act.depth + 1) w) ∧
      ∀ q x, q.outcome? = some x → E.Allows (f, w) q → E.Allows γ (act.resume x q.world)
  | .done v => E.Holds w.globals v γ.1.ref.ret
  | .fail e w' => e.Expected ∧ w'.globals = w.globals

section

variable (S : E.Sound)

include S

theorem Runs.transition (h : E.Runs γ act w) (hr : act.rest = []) :
    E.Turns γ act w (E.machine.turn act w) := by
  obtain ⟨ds, hs, hfills⟩ := h.frame
  have hl := h.lawful S
  rw [hr] at hs
  cases hn : act.next with
  | none => rw [hn] at hs; cases hs
  | some r =>
    rw [hn] at hs
    obtain ⟨b, rfl, -, hb, hs'⟩ := hs.enter hl.sound
    have hblock : E.machine.block? act.function b.ref = some b := by
      rw [h.function]
      change ((γ.1.block? b.ref).or _) = _
      rw [show γ.1.block? b.ref = some b from hb]
      rfl
    simp only [Machine.turn, hr, Machine.transition, hn, hblock]
    split
    · exact ⟨trivial, rfl⟩
    · exact ⟨⟨h.globals, h.still⟩, h.function, h.member, h.code, h.ready, ds, hs', hfills⟩

theorem Runs.receive (h : E.Runs γ act w)
    (hr : act.rest = i :: is) (ht : i.isTerminator = false) {fr : Frame} {v : Value} {w' : World}
    (hk : E.Keeps γ w') (hready : E.Ready w'.globals γ.1.id)
    (hf : ∀ ds, Standing γ.1.blocks ds (i :: is) none → E.Fills w.globals γ.1 ds act.frame →
      E.Fills w'.globals γ.1 (ds ++ [i.ref]) (fr.record i.ref v)) :
    E.Runs γ ({ act with frame := fr }.receive v) w' := by
  obtain ⟨hn, ds, hs, hfills⟩ := h.standing hr
  have hreceive : { act with frame := fr }.receive v =
      { act with frame := fr.record i.ref v, rest := is } := by
    simp only [Activation.receive, hr]
  rw [hreceive]
  refine ⟨hk, h.function, h.member, h.code, hready, ds ++ [i.ref], ?_, hf ds hs hfills⟩
  dsimp only
  rw [hn]
  exact hs.advance (h.lawful S).sound ht

theorem Runs.instruction (h : E.Runs γ act w) (hr : act.rest = i :: is)
    (hb : ∀ ψ φ, i.target? = some φ → i.Lacks act.frame w.globals ψ → E.excused φ) :
    E.Turns γ act w (E.machine.turn act w) := by
  obtain ⟨hn, ds, hs, hfills⟩ := h.standing hr
  have hl := h.lawful S
  have hi := hs.mem_code
  rw [Machine.turn_cons _ hr]
  have hacts := hfills.acts S.toLawful hl (S.params _ _ h.member h.code) h.globals h.ready hs hb
  generalize he : i.effect act.frame w.globals = e at hacts
  cases hacts with
  | computed ho hv =>
    have ht := Instr.not_isTerminator_of_value he
    exact h.receive S hr ht ⟨h.globals, h.still⟩ h.ready fun ds _ hfills => hfills.record hl hi ho
      hv
  | @storeLocal s v ho hslot hh hk hv =>
    have ht := Instr.not_isTerminator_of_value he
    refine h.receive S hr ht ⟨h.globals, h.still⟩ h.ready fun ds _ hfills => ?_
    rw [record_store hl hi ho]
    exact hfills.storeLocal hl hi ho hslot hh hk hv
  | @storeGlobal s v ho hslot hh hk hname hv =>
    have ht := Instr.not_isTerminator_of_value he
    have hmono := (assigned_store hv hk rfl h.globals).2
    refine h.receive S hr ht ⟨h.globals.store hv hk rfl, fun hne => ?_⟩ (h.ready.mono hmono)
      fun ds _ hfills => ?_
    · obtain ⟨n, hname⟩ := hname
      exact absurd hname (hne n)
    · rw [record_store hl hi ho]
      exact hfills.storeGlobal hl h.globals hi ho hslot hh hk hv
  | callMissing => exact ⟨trivial, rfl⟩
  | @call r args ho hoffers hready hargs hret =>
    obtain ⟨⟨f, hf, rfl⟩, hname⟩ := id hoffers
    have hf' : E.machine.module.function? f.ref.id = some f := hf
    obtain ⟨hcall, hback⟩ := allows_call (act.depth + 1) hoffers hf hready hargs h.globals
    simp only [Machine.enact, Option.bind_some, hf']
    refine ⟨hname, hcall, fun q x hx hq => ?_⟩
    obtain ⟨hglobals, hx⟩ := hback q x hx hq
    have hkeeps : E.Keeps γ q.world :=
      ⟨hglobals ▸ h.globals, fun hne => hglobals.trans (h.still hne)⟩
    cases x with
    | error e => exact ⟨hx, hkeeps⟩
    | ok v =>
      have ht := Instr.not_isTerminator_of_call he
      refine h.receive S hr ht hkeeps (hglobals ▸ h.ready) fun ds _ hfills => ?_
      rw [hglobals]
      refine hfills.record hl hi ho (hret ▸ hx.gives fun n hn => ?_)
      exact S.rets _ hoffers n hn
  | jump t ho =>
    obtain ⟨rfl, r, rfl, hs'⟩ := hs.jump hl.sound he
    have hop : i.op = .br ∨ i.op = .condBr := by
      rcases i.target_of_jump he with ⟨ho, -⟩ | ⟨ho, -⟩
      · exact .inl ho
      · exact .inr ho
    have hvoid : i.ref.ty = .void := by
      rw [(hl.legal i hi).type, Operation.resultTy]
      rcases hop with ho | ho <;> rw [ho]
    have hreceive : { act with next := some r }.receive .zero =
        { act with next := some r, frame := act.frame.record i.ref .zero, rest := [] } := by
      simp only [Activation.receive, hr]
    simp only [Machine.enact, hreceive]
    exact ⟨⟨h.globals, h.still⟩, h.function, h.member, h.code, h.ready, _, hs',
      hfills.record hl hi ho (hvoid ▸ .void)⟩
  | ret _ hv => exact hv

theorem Runs.turns (h : E.Runs γ act w) (hb : ¬ E.Bad (.code act w)) :
    E.Turns γ act w (E.machine.turn act w) := by
  cases hr : act.rest with
  | nil => exact h.transition S hr
  | cons i is =>
    refine h.instruction S hr fun ψ φ ht hl => ?_
    by_contra hn
    exact hb ⟨ψ, φ, ⟨act, w, i, is, rfl, hr, ht, hl⟩, hn⟩

theorem start_runs {d : Nat} (hf : E.module.function? f.id = some f) (hn : f.native = false)
    (ha : List.Forall₂ (E.Holds w.globals) args f.ref.params) (hr : E.Ready w.globals f.id)
    (hg : E.Globals w.globals) : ∃ act, Activation.start? f args d = some act ∧ E.Runs
    (f, w) act w := by
  have hl := S.code f.id f hf hn
  obtain ⟨b, hb⟩ : ∃ b, f.blocks.head? = some b :=
    Option.ne_none_iff_exists'.mp (by simpa using hl.sound.nonempty)
  refine ⟨_, by rw [Activation.start?, hb]; rfl, ⟨hg, fun _ => rfl⟩, rfl, hf, hn, hr, [], ?_,
    start_fills ha⟩
  exact .start hl.sound hb

theorem Sound.contract : E.machine.Contract E.Bad E.Allows := by
  constructor
  · intro γ p p' hp hb ha
    cases p with
    | call f args d w =>
      obtain ⟨rfl, hf, hargs, hr, hg⟩ := hp
      simp only [Machine.advance] at ha
      cases hn : f.native with
      | true =>
        obtain ⟨native, hlook, hhonest⟩ := S.natives f.id f hf hn
        simp only [hn, if_true, hlook, Advance.go.injEq] at ha
        subst ha
        exact ⟨rfl, hhonest w.globals args hargs, hg, rfl⟩
      | false =>
        obtain ⟨act, hact, hruns⟩ := start_runs (d := d) S hf hn hargs hr hg
        simp only [hn, Bool.false_eq_true, if_false, hact] at ha
        split at ha <;> obtain rfl := Advance.go.inj ha
        · exact ⟨trivial, hg, fun _ => rfl⟩
        · exact hruns
    | code act w =>
      have ht := Runs.turns S hp hb
      simp only [Machine.advance] at ha
      split at ha <;> rename_i he <;> rw [he] at ht
      · cases ha
        exact ht
      · cases ha
      · cases ha
        exact ⟨ht, hp.toKeeps⟩
      · cases ha
        exact ⟨ht.1, ht.2 ▸ hp.globals, fun hne => ht.2.trans (hp.still hne)⟩
    | native f d a w =>
      obtain ⟨rfl, hhonest, hg, hstill⟩ := hp
      have hkeeps : E.Keeps γ w := ⟨hg, fun _ => hstill⟩
      cases Machine.acts_of_advanceNative ha with
      | done | fail | raise => exact ⟨hhonest, hkeeps⟩
      | missing => exact ⟨rfl, (hhonest _).symm ▸ trivial, hg, hstill⟩
      | stop | closed | unwritten => exact ⟨trivial, hkeeps⟩
      | misfit hl =>
        obtain ⟨-, -, hargs, -⟩ := hhonest
        exact absurd hargs.length_eq hl
      | unbound hnone =>
        obtain ⟨⟨⟨g, hg', -⟩, -⟩, -⟩ := hhonest
        cases (show E.machine.module.function? _ = some g from hg').symm.trans hnone
      | proceed | enter | write => exact ⟨rfl, hhonest, hg, hstill⟩
      | read hw =>
        have hworld := w.globals_inputWords
        rw [hw] at hworld
        exact ⟨rfl, hworld.symm ▸ hhonest _, hworld.symm ▸ hg, hworld.trans hstill⟩
      | unread hw =>
        have hworld := w.globals_inputWords
        rw [hw] at hworld
        exact ⟨w.expected_inputWords _ (congrArg Prod.fst hw), hworld.symm ▸ hg,
          fun _ => hworld.trans hstill⟩
      | leave rest =>
        have hworld := w.globals_leaveInput rest
        exact ⟨rfl, hworld.symm ▸ hhonest, hworld.symm ▸ hg, hworld.trans hstill⟩
    | back | fail => cases ha
  · intro γ p f args d w next hp hb ha
    rcases Machine.call_cases ha with ⟨act, rfl, hturn, rfl, rfl⟩ | ⟨f', e, r, after, rfl, -,
      hfind, rfl, rfl⟩
    · have ht := Runs.turns S hp hb
      rw [hturn] at ht
      exact ⟨_, ht.2⟩
    · obtain ⟨rfl, ⟨ho, hready, hargs, hnext, hfail⟩, hg, hstill⟩ := hp
      obtain ⟨⟨g, hgr, -⟩, -⟩ := id ho
      obtain rfl : g = f := Option.some.inj (Eq.trans (Eq.symm hgr) hfind)
      obtain ⟨hcall, hback⟩ := allows_call (e + 1) ho hgr hready hargs hg
      refine ⟨_, hcall, fun q x hx hq => ?_⟩
      obtain ⟨hglobals, hx⟩ := hback q x hx hq
      refine ⟨rfl, ?_, hglobals ▸ hg, hglobals.trans hstill⟩
      cases x with
      | ok v => exact hglobals ▸ hnext v hx
      | error e =>
        rw [hfail]
        exact hx

theorem Sound.name_of_call (hp : E.Allows γ p) (hb : ¬ E.Bad p) {d : Nat} {w : World}
    {next : Except RuntimeError Value → World → Point}
    (ha : E.machine.advance p = .call f args d w next) (n : Nat) :
    f.name ≠ Lowering.unitName n := by
  rcases Machine.call_cases ha with ⟨act, rfl, hturn, -, -⟩ | ⟨f', e, r, after, rfl, -, hfind, -, -⟩
  · have ht := Runs.turns S hp hb
    rw [hturn] at ht
    exact ht.1 n
  · obtain ⟨-, ⟨⟨⟨g, hg, rfl⟩, hname⟩, -⟩, -⟩ := hp
    obtain rfl : g = f := Option.some.inj (Eq.trans (Eq.symm hg) hfind)
    exact hname n

theorem Runs.storing (h : E.Runs γ act w) (hr : act.rest = i :: is) (ho : i.op = .store) {s : Slot}
    (hslot : i.slot = some s) (hh : s.home = .module) : ∃ v, act.storing? = some (s.index, v) ∧
      E.Gives (∃ φ, i.Lacks act.frame w.globals φ) w.globals v s.ty := by
  obtain ⟨-, ds, hs, hfills⟩ := h.standing hr
  have hl := h.lawful S
  have htyped := hl.typed i hs.mem_code
  simp only [Operation.Typed, ho] at htyped
  obtain ⟨s', hslot', hargs⟩ := htyped
  cases hslot.symm.trans hslot'
  obtain ⟨x, xs, ha, hx, hxs⟩ := List.map_eq_cons_iff.mp hargs
  obtain rfl := List.map_eq_nil_iff.mp hxs
  obtain ⟨v, hv, hgives⟩ := hfills.operand S.toLawful hl (S.params _ _ h.member h.code) h.ready hs
    (x := x) (by simp [ha])
  refine ⟨v, ?_, hx ▸ hgives⟩
  rw [Activation.storing?_cons hr, if_pos ho]
  simp [hslot, Option.filter, Slot.isGlobal, hh, ha, Frame.operands?, hv]

theorem Sound.moves_of_stored (hp : E.Allows γ p) {v : Value} (h : p.stored? = some (k, v))
    {slot : Slot} {n : Nat} (hk : E.module.globals[k]? = some slot) (hty : slot.ty = .func n)
    (hnone : v.toFunction = none) : ∃ ψ, p.Moves ψ (.stored .module k) := by
  cases p with
  | code act w =>
    have hruns : E.Runs γ act w := hp
    obtain ⟨i, rest, s, hr, ho, hslot, hg, rfl⟩ := Activation.exists_of_storing h
    have hh : s.home = .module := by simpa [Slot.isGlobal] using hg
    obtain ⟨v', hv', hgives⟩ := hruns.storing S hr ho hslot hh
    obtain rfl : v' = v := by simpa using hv'.symm.trans h
    obtain ⟨-, ds, hs, -⟩ := hruns.standing hr
    have hs : E.module.globals[s.index]? = some s := by
      rcases ((hruns.lawful S).legal i hs.mem_code).slot s hslot with ⟨-, hk⟩ | ⟨hh', -⟩
      · exact hk
      · rw [hh] at hh'
        cases hh'
    cases hs.symm.trans hk
    obtain ⟨ψ, hψ⟩ := hgives.there n hty hnone
    exact ⟨ψ, act, w, i, rest, rfl, hr, by simp [Instr.target?, ho, hslot, Slot.fact, hh], hψ⟩
  | _ => cases h

theorem Sound.stores_of_moves (hp : E.Allows γ p) {ψ : Fact} (h : p.Moves ψ (.stored .module k)) :
    p.Stores k := by
  obtain ⟨act, w, i, rest, rfl, hr, ht, -⟩ := h
  have hruns : E.Runs γ act w := hp
  unfold Instr.target? at ht
  split at ht
  · cases ht
  · rename_i ho
    obtain ⟨s, hslot, hfact⟩ := Option.map_eq_some_iff.mp ht
    obtain ⟨hh, rfl⟩ := Fact.stored.inj hfact
    obtain ⟨v, hv, -⟩ := hruns.storing S hr ho hslot hh
    exact ⟨v, hv⟩
  · cases ht

end

theorem Sound.assigned_of_ends (hp : E.Allows γ p) (hf : E.module.function? f.id = some f)
    (he : p.Ends f.ref) {n n' : Nat} (hends : f.EndsStored n n') (hk : n ≤ k) (hlt : k < n') :
    E.Assigned p.world.globals k := by
  obtain ⟨act, w, i, rest, rfl, href, hr, hlast⟩ := he
  have hruns : E.Runs γ act w := hp
  have hfun : γ.1 = f := by
    have hid : γ.1.id = f.id := by rw [← hruns.function, Function.id, href]; rfl
    exact Option.some.inj ((hid ▸ hruns.member).symm.trans hf)
  obtain ⟨-, ds, hstand, hfills⟩ := hruns.standing hr
  rw [hruns.function, hfun] at hlast
  rw [hfun] at hstand hfills
  cases hstand with
  | inside hpath hi => exact hfills.assigned k (hends _ _ hpath _ _ _ hi hlast k hk hlt)

theorem Sound.excused_of_lacks (S : E.Sound) (hp : E.Allows γ p) {φ : Fact} (h : p.Lacks φ) :
    E.excused φ ∨ ∃ k, φ = .stored .module k ∧ k < E.first := by
  obtain ⟨act, w, i, rest, rfl, hr, hlacks⟩ := h
  have hruns : E.Runs γ act w := hp
  obtain ⟨-, ds, hs, hfills⟩ := hruns.standing hr
  have hl := hruns.lawful S
  cases hlacks with
  | @operand r n hmem hty hnone =>
    have hne : r.register ≠ none := by
      intro he
      have hvoid := hl.results i hs.mem_code r hmem he
      rw [hty] at hvoid
      cases hvoid
    have hdef := hs.defined hl.sound (List.mem_filterMap.mpr ⟨.result r, hmem, rfl⟩) hne
    obtain ⟨j, hj, rfl⟩ := hs.mem_results hdef
    exact .inl ((hfills.computed j hj hdef).there n hty hnone)
  | @slot s n home k ho hslot hty hh hk hnone =>
    subst hh hk
    rcases (hl.legal i hs.mem_code).slot s hslot with ⟨hh, hk⟩ | ⟨hh, hk⟩
    · rw [if_pos (by simp [Slot.isGlobal, hh])] at hnone
      rcases Nat.lt_or_ge s.index E.first with hlt | hge
      · exact .inr ⟨s.index, by rw [hh], hlt⟩
      · rw [hh]
        rcases Nat.lt_or_ge s.index (E.reach γ.1.id) with hlow | hhigh
        · exact .inl (hruns.ready s.index hge hlow s n hk hty hnone)
        · have hneed : i.toOperation.Needs E.reach γ.1.id s.fact := .slot ho hslot fun _ => hhigh
          rw [Slot.fact, hh] at hneed
          exact .inl (hfills.assigned s.index (hs.recorded hl hneed) s n hk hty hnone)
    · rw [if_neg (by simp [Slot.isGlobal, hh])] at hnone
      have hneed : i.toOperation.Needs E.reach γ.1.id s.fact := .slot ho hslot (by simp [hh])
      rw [Slot.fact, hh] at hneed
      rw [hh]
      exact .inl ((hfills.stored s.index s hk (hs.recorded hl hneed)).there n hty hnone)

theorem Sound.global_of_lacks (S : E.Sound) (hp : E.Allows γ p) (h : p.Lacks (.stored .module k)) :
    ∃ slot n, E.module.globals[k]? = some slot ∧ slot.ty = .func n ∧
      (p.world.globals.getD k .zero).toFunction = none := by
  obtain ⟨act, w, i, rest, rfl, hr, hlacks⟩ := h
  have hruns : E.Runs γ act w := hp
  obtain ⟨-, ds, hs, -⟩ := hruns.standing hr
  cases hlacks with
  | @slot s n _ _ ho hslot hty hh hk hnone =>
    subst hk
    rw [if_pos (by simp [Slot.isGlobal, hh])] at hnone
    rcases ((hruns.lawful S).legal i hs.mem_code).slot s hslot with ⟨-, hk⟩ | ⟨hh', -⟩
    · exact ⟨s, n, hk, hty, hnone⟩
    · rw [hh] at hh'
      cases hh'

end Setting

end RealScript
