import RealScript.Proofs.Lowering.Lawful
import RealScript.Proofs.Machine.Safety

/-! # Values of the right types

Storage of lawful code holds values of the types that it was declared with. A function can be
missing from storage that nothing was stored to. It is missing from another place only if it was
moved there from a place that it was missing from.
-/

namespace RealScript

theorem Value.HasType.mono {m m' : Module} {v : Value} {ty : Ty} (h : v.HasType m.Offers ty)
    (hm : ∀ k f, m.function? k = some f → ∃ g, m'.function? k = some g ∧ g.ref = f.ref) :
    v.HasType m'.Offers ty := by
  cases ty with
  | func n =>
    rcases h with h | ⟨r, hr, ho, hsig⟩
    · exact .inl h
    · exact .inr ⟨r, hr, ho.mono hm, hsig⟩
  | _ => exact h

theorem Value.HasType.offers {m : Module} {r : FuncRef} {ty : Ty}
    (h : (Value.function (some r)).HasType m.Offers ty) : m.Offers r := by
  cases ty with
  | real | bool =>
    obtain ⟨x, hx⟩ := h
    cases hx
  | collection => exact absurd rfl (h _)
  | func n =>
    rcases h with h | ⟨r', hr, ho, -⟩
    · cases h
    · obtain rfl : r = r' := by simpa using hr
      exact ho
  | void => cases h

def RunCause.Expected : RunCause → Prop
  | .argumentCount _ _ | .unbound | .fellOff _ | .unknownOpcode _ => False
  | _ => True

def Fault.Expected : Fault → Prop
  | .runtime e => e.cause.Expected
  | .missingOperand => False
  | .outOfFuel => True

theorem Standing.recorded {m : Module} {reach : Nat → Nat} {f : Function} {ds : List ResultRef}
    {i : Instr} {rest : List Instr} (hs : Standing f.blocks ds (i :: rest) none)
    (hl : f.Lawful m reach)
    {home : Home} {k : Nat} (hn : i.toOperation.Needs reach f.id (.stored home k)) :
    Recorded f.blocks ds (.stored home k) := by
  cases hs with
  | inside hp he => exact hl.founded _ _ hp _ _ _ he _ hn

/-- The place that an instruction moves a value to. -/
def Instr.target? (i : Instr) : Option Fact := match i.op with
  | .load => some (.result i.ref)
  | .store => i.slot.map Slot.fact
  | _ => none

/-- The instruction takes a function from a place that it is missing from. -/
inductive Instr.Lacks (i : Instr) (fr : Frame) (globals : Array Value) : Fact → Prop where
  | operand {r : ResultRef} {n : Nat} : .result r ∈ i.args → r.ty = .func n →
      (fr.result r).toFunction = none → Lacks i fr globals (.result r)
  | slot {s : Slot} {n : Nat} {home : Home} {k : Nat} : i.op = .load → i.slot = some s →
      s.ty = .func n → s.home = home → s.index = k →
      ((if s.isGlobal then globals else fr.slots).getD k .zero).toFunction = none →
      Lacks i fr globals (.stored home k)

def Point.Lacks (p : Point) (φ : Fact) : Prop :=
  ∃ act w i rest, p = .code act w ∧ act.rest = i :: rest ∧ i.Lacks act.frame w.globals φ

/-- What is missing from `ψ` is moved to `φ`. -/
def Point.Moves (p : Point) (ψ φ : Fact) : Prop :=
  ∃ act w i rest, p = .code act w ∧ act.rest = i :: rest ∧ i.target? = some φ ∧
    i.Lacks act.frame w.globals ψ

theorem Point.Moves.lacks {p : Point} {ψ φ : Fact} (h : p.Moves ψ φ) : p.Lacks ψ := by
  obtain ⟨act, w, i, rest, hp, hr, -, hl⟩ := h
  exact ⟨act, w, i, rest, hp, hr, hl⟩

theorem Instr.target?_of_func {i : Instr} {fr : Frame}
    {globals slots globals' : Array Value} {v : Value}
    {n : Nat} (h : i.effect fr globals = .value v slots globals')
    (hty : i.toOperation.resultTy = .func n) : i.target? = some (.result i.ref) := by
  unfold Instr.effect at h
  split at h
  · cases h
  · unfold Instr.apply at h
    unfold Operation.resultTy at hty
    unfold Instr.target?
    cases hop : i.op <;> simp [hop] at h hty ⊢

/-- The terms on which a unit runs: the globals from `first` on are its own, and a function may read
those of them below its `reach` without further ado. What is computed and stored may lack a function
at the places that are excused. -/
structure Setting where
  machine : Machine
  reach : Nat → Nat
  first : Nat
  excused : Fact → Prop

namespace Setting

variable (E : Setting)

def module : Module := E.machine.module

def Assigned (globals : Array Value) (k : Nat) : Prop :=
  ∀ slot n, E.module.globals[k]? = some slot → slot.ty = .func n →
    (globals.getD k .zero).toFunction = none → E.excused (.stored .module k)

def Ready (globals : Array Value) (fn : Nat) : Prop :=
  ∀ k, E.first ≤ k → k < E.reach fn → E.Assigned globals k

structure Holds (globals : Array Value) (v : Value) (ty : Ty) : Prop where
  type : v.HasType E.module.Offers ty
  ready : ∀ r, v = .function (some r) → E.Ready globals r.id

structure Gives (excuse : Prop) (globals : Array Value) (v : Value) (ty : Ty) : Prop extends
    E.Holds globals v ty where
  there : ∀ n, ty = .func n → v.toFunction = none → excuse

structure Globals (globals : Array Value) : Prop where
  size : globals.size = E.module.globals.length
  holds : ∀ k slot, E.module.globals[k]? = some slot → E.Holds globals
    (globals.getD k .zero) slot.ty

structure Fills (globals : Array Value) (f : Function) (ds : List ResultRef) (fr : Frame) :
    Prop where
  args : List.Forall₂ (E.Holds globals) fr.args f.ref.params
  registers : fr.registers.size = f.registers
  results : ∀ i ∈ code f.blocks, E.Holds globals (fr.result i.ref) i.ref.ty
  computed : ∀ i ∈ code f.blocks, i.ref ∈ ds →
    E.Gives (E.excused (.result i.ref)) globals (fr.result i.ref) i.ref.ty
  slots : fr.slots.size = f.slots.length
  held : ∀ k slot, f.slots[k]? = some slot → E.Holds globals (fr.slots.getD k .zero) slot.ty
  stored : ∀ k slot, f.slots[k]? = some slot → Recorded f.blocks ds (.stored (.activation f.id) k) →
      E.Gives (E.excused (.stored (.activation f.id) k)) globals (fr.slots.getD k .zero) slot.ty
  assigned : ∀ k, Recorded f.blocks ds (.stored .module k) → E.Assigned globals k

variable {E} {globals globals' : Array Value} {v : Value} {ty : Ty} {excuse : Prop}

theorem Ready.mono {fn : Nat} (h : E.Ready globals fn)
    (hg : ∀ k, E.Assigned globals k → E.Assigned globals' k) : E.Ready globals' fn :=
  fun k hk hlt => hg k (h k hk hlt)

theorem Holds.mono (h : E.Holds globals v ty)
    (hg : ∀ k, E.Assigned globals k → E.Assigned globals' k) : E.Holds globals' v ty :=
  ⟨h.type, fun r hr => (h.ready r hr).mono hg⟩

theorem Gives.mono (h : E.Gives excuse globals v ty)
    (hg : ∀ k, E.Assigned globals k → E.Assigned globals' k) : E.Gives excuse globals' v ty :=
  ⟨h.toHolds.mono hg, h.there⟩

theorem holds_zero (globals : Array Value) (ty : Ty) : E.Holds globals .zero ty :=
  ⟨Value.hasType_zero _ ty, nofun⟩

theorem Holds.number (x : Float) (h : ty = .real ∨ ty = .bool) :
    E.Holds globals (.number x) ty := by
  rcases h with rfl | rfl <;> exact ⟨⟨x, rfl⟩, nofun⟩

theorem Holds.collection (xs : List Float) : E.Holds globals (.collection xs) .collection :=
  ⟨nofun, nofun⟩

theorem Holds.function {n : Nat} (h : E.Holds globals v (.func n)) :
    v.toFunction = none ∨ ∃ r, v = .function (some r) ∧ E.module.Offers r ∧
      E.Ready globals r.id ∧ r.params = List.replicate n .real ∧ r.ret = .real := by
  rcases h.type with rfl | ⟨r, rfl, ho, hp, hr⟩
  · exact .inl rfl
  · exact .inr ⟨r, rfl, ho, h.ready r rfl, hp, hr⟩

theorem Holds.gives (h : E.Holds globals v ty) (hty : ∀ n, ty ≠ .func n) :
    E.Gives excuse globals v ty := ⟨h, fun n hn => absurd hn (hty n)⟩

theorem Gives.void : E.Gives excuse globals .zero .void :=
  (holds_zero globals .void).gives fun _ h => by cases h

theorem types (E : Setting) (excuse : Prop) (globals : Array Value) :
    Value.Types (E.Gives excuse globals) fun r => E.module.Offers r ∧ E.Ready globals r.id where
  number x _ h := (Holds.number x h).gives fun _ hn => by
    rcases h with rfl | rfl <;> cases hn
  collection xs := (Holds.collection xs).gives fun _ h => by cases h
  void := .void
  function v n h := by
    rcases h.toHolds.function with hnone | ⟨r, rfl, ho, hr, hsig⟩
    · exact .inl hnone
    · exact .inr ⟨r, rfl, ⟨ho, hr⟩, hsig⟩

theorem Fills.mono {f : Function} {ds : List ResultRef} {fr : Frame} (h : E.Fills globals f ds fr)
    (hg : ∀ k, E.Assigned globals k → E.Assigned globals' k) : E.Fills globals' f ds fr where
  args := h.args.imp fun _ _ hv => hv.mono hg
  registers := h.registers
  results i hi := (h.results i hi).mono hg
  computed i hi hr := (h.computed i hi hr).mono hg
  slots := h.slots
  held k slot hs := (h.held k slot hs).mono hg
  stored k slot hs hr := (h.stored k slot hs hr).mono hg
  assigned k hr := hg k (h.assigned k hr)

/-! ## What instructions ask for -/

structure Lawful (E : Setting) : Prop where
  code : ∀ k f, E.module.function? k = some f → f.native = false → f.Lawful E.module E.reach
  values : ∀ r, E.module.Offers r → Nameable r.name → (∀ ty ∈ r.params, ty = .real) ∧ r.ret = .real
  params : ∀ k f, E.module.function? k = some f → f.native = false → ∀ n, .func n ∉ f.ref.params
  rets : ∀ r, E.module.Offers r → ∀ n, r.ret ≠ .func n

inductive Acts (E : Setting) (globals : Array Value) (f : Function) (i : Instr) (fr : Frame) :
    Effect → Prop where
  | computed {v : Value} : i.op ≠ .store → E.Gives (E.excused (.result i.ref)) globals v i.ref.ty →
      Acts E globals f i fr (.value v fr.slots globals)
  | storeLocal {s : Slot} {v : Value} : i.op = .store → i.slot = some s →
      s.home = .activation f.id → f.slots[s.index]? = some s →
      E.Gives (E.excused (.stored (.activation f.id) s.index)) globals v s.ty →
      Acts E globals f i fr (.value .zero (fr.slots.setIfInBounds s.index v) globals)
  | storeGlobal {s : Slot} {v : Value} : i.op = .store → i.slot = some s → s.home = .module →
      E.module.globals[s.index]? = some s → (∃ n, f.name = Lowering.unitName n) →
      E.Gives (E.excused (.stored .module s.index)) globals v s.ty →
      Acts E globals f i fr (.value .zero fr.slots (globals.setIfInBounds s.index v))
  | callMissing (args : List Value) : i.op ≠ .store → Acts E globals f i fr (.call none args)
  | call {r : FuncRef} {args : List Value} : i.op ≠ .store → E.module.Offers r →
    E.Ready globals r.id → List.Forall₂ (E.Holds globals) args r.params → r.ret = i.ref.ty →
      Acts E globals f i fr (.call (some r) args)
  | jump (t : Option BlockRef) : i.op ≠ .store → Acts E globals f i fr (.jump t)
  | ret {v : Value} : i.op ≠ .store → E.Holds globals v f.ref.ret → Acts E globals f i fr (.ret v)

variable {f : Function} {ds : List ResultRef} {fr : Frame} {i : Instr} {rest : List Instr}

theorem Fills.ready (hl : f.Lawful E.module E.reach) (h : E.Fills globals f ds fr)
    (hr : E.Ready globals f.id) (hs : Standing f.blocks ds (i :: rest) none) {r : FuncRef}
    (hmem : r ∈ i.toOperation.refs) : E.Ready globals r.id := by
  intro k hk hlt
  rcases Nat.lt_or_ge k (E.reach f.id) with hlow | hhigh
  · exact hr k hk hlow
  · exact h.assigned k (hs.recorded hl (.function hmem hhigh hlt))

theorem Fills.operand (L : E.Lawful) (hl : f.Lawful E.module E.reach)
    (hp : ∀ n, .func n ∉ f.ref.params) (h : E.Fills globals f ds fr) (hr : E.Ready globals f.id)
    (hs : Standing f.blocks ds (i :: rest) none) {x : Operand} (hx : x ∈ i.args) :
    ∃ v, fr.operand? x = some v ∧ E.Gives (∃ φ, i.Lacks fr globals φ) globals v x.ty := by
  have hlegal := hl.legal i hs.mem_code
  cases x with
  | real x => exact ⟨.number x, rfl, (Holds.number x (.inl rfl)).gives fun _ h => by cases h⟩
  | truth b => exact ⟨.number _, rfl, (Holds.number _ (.inr rfl)).gives fun _ h => by cases h⟩
  | param k index name ty =>
    have hty := hlegal.params k index name ty hx
    refine ⟨_, rfl, (getD_of_forall₂ h.args hty _).gives fun n hn => hp n ?_⟩
    obtain rfl : ty = .func n := hn
    exact List.mem_of_getElem? hty
  | func r =>
    have hmem : r ∈ i.toOperation.refs :=
      List.mem_append_right _ (List.mem_filterMap.mpr ⟨.func r, hx, rfl⟩)
    have hoffers := hlegal.refs r hmem
    obtain ⟨hparams, hret⟩ := L.values r hoffers (hlegal.value r hx)
    refine ⟨.function (some r), rfl, ⟨.inr ⟨r, rfl, hoffers, ?_, hret⟩, fun r' he => ?_⟩,
      fun _ _ h => by simp [Value.toFunction] at h⟩
    · exact List.eq_replicate_iff.mpr ⟨rfl, hparams⟩
    · obtain rfl : r = r' := by simpa using he
      exact h.ready hl hr hs hmem
  | result r =>
    refine ⟨fr.result r, rfl, ?_⟩
    by_cases hn : r.register = none
    · rw [Frame.result_of_register_eq_none hn, Operand.ty, hl.results i hs.mem_code r hx hn]
      exact .void
    · have hmem := hs.defined hl.sound (List.mem_filterMap.mpr ⟨.result r, hx, rfl⟩) hn
      obtain ⟨j, hj, rfl⟩ := hs.mem_results hmem
      exact ⟨(h.computed j hj hmem).toHolds, fun n hty hnone => ⟨_, .operand hx hty hnone⟩⟩
  | hole => exact absurd rfl ((hl.sound.fits i hs.mem_code).operands _ hx)

theorem Fills.load (hl : f.Lawful E.module E.reach) (h : E.Fills globals f ds fr)
    (hg : E.Globals globals) (hs : Standing f.blocks ds (i :: rest) none)
    (ho : i.op = .load) {s : Slot}
    (hslot : i.slot = some s) : E.Gives (∃ φ, i.Lacks fr globals φ) globals
      ((if s.isGlobal then globals else fr.slots).getD s.index .zero) s.ty := by
  refine ⟨?_, fun n hty hnone => ⟨_, .slot ho hslot hty rfl rfl hnone⟩⟩
  rcases (hl.legal i hs.mem_code).slot s hslot with ⟨hh, hk⟩ | ⟨hh, hk⟩
  · rw [if_pos (by simp [Slot.isGlobal, hh])]
    exact hg.holds s.index s hk
  · rw [if_neg (by simp [Slot.isGlobal, hh])]
    exact h.held s.index s hk

theorem Fills.acts (L : E.Lawful) (hl : f.Lawful E.module E.reach)
    (hp : ∀ n, .func n ∉ f.ref.params) (h : E.Fills globals f ds fr) (hg : E.Globals globals)
    (hr : E.Ready globals f.id) (hs : Standing f.blocks ds (i :: rest) none)
    (hb : ∀ ψ φ, i.target? = some φ → i.Lacks fr globals ψ → E.excused φ) :
    E.Acts globals f i fr (i.effect fr globals) := by
  have hmem := hs.mem_code
  have hlegal := hl.legal i hmem
  have hasks := Instr.asks (E.types (∃ φ, i.Lacks fr globals φ) globals)
    (hl.typed i hmem) hlegal.type
    (fun x hx => h.operand L hl hp hr hs hx)
    (fun c hc => by
      have hrefs : c ∈ i.toOperation.refs := List.mem_append_left _ (by simp [hc])
      exact ⟨hlegal.refs c hrefs, h.ready hl hr hs hrefs⟩)
    fun s ho hslot => h.load hl hg hs ho hslot
  -- A place is excused if the instruction moves something to it and lacks a function.
  have hexcuse : ∀ {v ty φ}, i.target? = some φ →
      E.Gives (∃ φ, i.Lacks fr globals φ) globals v ty → E.Gives (E.excused φ) globals v ty := by
    intro v ty φ ht hv
    refine ⟨hv.toHolds, fun n hty hnone => ?_⟩
    obtain ⟨ψ, hψ⟩ := hv.there n hty hnone
    exact hb ψ φ ht hψ
  generalize he : i.effect fr globals = e at hasks
  cases hasks with
  | computed ho hv =>
    refine .computed ho ⟨hv.toHolds, fun n hty hnone => ?_⟩
    have ht := Instr.target?_of_func he (hlegal.type.symm.trans hty)
    exact (hexcuse ht hv).there n hty hnone
  | @storeGlobal s v ho hslot hh hv =>
    rcases hlegal.slot s hslot with ⟨-, hk⟩ | ⟨hh', -⟩
    · exact .storeGlobal ho hslot hh hk (hlegal.store s hslot ho hh)
        (hexcuse (by simp [Instr.target?, ho, hslot, Slot.fact, hh]) hv)
    · rw [hh] at hh'
      cases hh'
  | @storeLocal s v ho hslot hh hv =>
    rcases hlegal.slot s hslot with ⟨hh', -⟩ | ⟨hh', hk⟩
    · exact absurd hh' hh
    · exact .storeLocal ho hslot hh' hk
        (hexcuse (by simp [Instr.target?, ho, hslot, Slot.fact, hh']) hv)
  | callMissing args ho => exact .callMissing args ho
  | call ho hok hargs hret => exact .call ho hok.1 hok.2 (hargs.imp fun _ _ h => h.toHolds) hret
  | jump t ho => exact .jump t ho
  | ret ho hv => exact .ret ho hv.toHolds

/-! ## Steps keep what frames hold -/

theorem recorded_append {m : Module} {reach : Nat → Nat} (hl : f.Lawful m reach)
    (hi : i ∈ RealScript.code f.blocks) {home : Home} {k : Nat}
    (h : Recorded f.blocks (ds ++ [i.ref]) (.stored home k)) :
    Recorded f.blocks ds (.stored home k) ∨ .stored home k ∈ i.facts := by
  obtain ⟨j, hj, hφ, hr⟩ := h
  rcases List.mem_append.mp hr with hr | hr
  · exact .inl ⟨j, hj, hφ, hr⟩
  · obtain rfl := hl.sound.eq_of_ref_eq hj hi (List.mem_singleton.mp hr)
    exact .inr hφ

theorem start_fills {args : List Value} (h : List.Forall₂ (E.Holds globals) args f.ref.params) :
    E.Fills globals f [] (.ofFunction f args) where
  args := h
  registers := by simp [Frame.ofFunction]
  results i _ := by
    have hzero : (Frame.ofFunction f args).result i.ref = .zero := by
      unfold Frame.result Frame.ofFunction
      cases i.ref.register with
      | none => rfl
      | some n => by_cases hn : n < f.registers <;> simp [hn]
    rw [hzero]
    exact holds_zero _ _
  computed _ _ hr := by cases hr
  slots := by simp [Frame.ofFunction]
  held k slot hs := by
    have hk := (List.getElem?_eq_some_iff.mp hs).1
    have hzero : (Frame.ofFunction f args).slots.getD k .zero = .zero := by
      simp [Frame.ofFunction, Array.getD, hk]
    rw [hzero]
    exact holds_zero _ _
  stored _ _ _ hr := by
    obtain ⟨_, _, _, hr⟩ := hr
    cases hr
  assigned _ hr := by
    obtain ⟨_, _, _, hr⟩ := hr
    cases hr

theorem Fills.record (hl : f.Lawful E.module E.reach) (h : E.Fills globals f ds fr)
    (hi : i ∈ RealScript.code f.blocks) (ho : i.op ≠ .store)
    (hv : E.Gives (E.excused (.result i.ref)) globals v i.ref.ty) :
    E.Fills globals f (ds ++ [i.ref]) (fr.record i.ref v) := by
  have hold : ∀ {home k}, Recorded f.blocks (ds ++ [i.ref]) (.stored home k) →
      Recorded f.blocks ds (.stored home k) := fun hr =>
    (recorded_append hl hi hr).resolve_right fun hφ => ho (Instr.op_of_stored hφ)
  have hself : i.ref.register ≠ none → (fr.record i.ref v).result i.ref = v := by
    intro hn
    obtain ⟨k, hk⟩ := Option.ne_none_iff_exists'.mp hn
    exact Frame.result_record_self hk (h.registers ▸ (hl.sound.fits i hi).register k hk) v
  have hother : ∀ j ∈ RealScript.code f.blocks, j.ref.register = none ∨ j.ref ≠ i.ref →
      (fr.record i.ref v).result j.ref = fr.result j.ref := by
    intro j hj hne
    refine Frame.result_record_of_ne ?_ fr v
    by_contra hcon
    obtain ⟨hn, he⟩ := not_or.mp hcon
    exact hne.elim hn fun hne => hne (hl.sound.ref_eq_of_register_eq hj hi hn (not_not.mp he))
  refine ⟨by simpa using h.args, by simpa using h.registers, fun j hj => ?_, fun j hj hr => ?_,
    by simpa using h.slots, by simpa using h.held, fun k slot hs hr => ?_, fun k hr => ?_⟩
  · by_cases hn : j.ref.register = none ∨ j.ref ≠ i.ref
    · rw [hother j hj hn]
      exact h.results j hj
    · obtain ⟨hn, he⟩ := not_or.mp hn
      rw [not_not.mp he] at hn ⊢
      rw [hself hn]
      exact hv.toHolds
  · by_cases hn : j.ref.register = none
    · have hvoid := (hl.legal j hj).register.mp hn
      rw [Frame.result_of_register_eq_none hn, hvoid]
      exact .void
    · by_cases he : j.ref = i.ref
      · rw [he] at hn ⊢
        rw [hself hn]
        exact hv
      · rw [hother j hj (.inr he)]
        refine h.computed j hj ((List.mem_append.mp hr).resolve_right fun hr => ?_)
        exact he (List.mem_singleton.mp hr)
  · simpa using h.stored k slot hs (hold hr)
  · exact h.assigned k (hold hr)

theorem record_store (hl : f.Lawful E.module E.reach) (hi : i ∈ RealScript.code f.blocks)
    (ho : i.op = .store) (fr : Frame) : fr.record i.ref .zero = fr := by
  refine Frame.record_of_register_eq_none ((hl.legal i hi).register.mpr ?_) fr _
  rw [(hl.legal i hi).type, Operation.resultTy, ho]

theorem Fills.storeLocal (hl : f.Lawful E.module E.reach) (h : E.Fills globals f ds fr)
    (hi : i ∈ RealScript.code f.blocks) {s : Slot} (ho : i.op = .store) (hslot : i.slot = some s)
    (hh : s.home = .activation f.id) (hs : f.slots[s.index]? = some s)
    (hv : E.Gives (E.excused (.stored (.activation f.id) s.index)) globals v s.ty) :
    E.Fills globals f (ds ++ [i.ref]) { fr with slots := fr.slots.setIfInBounds s.index v } := by
  have hlt : s.index < fr.slots.size := h.slots ▸ (List.getElem?_eq_some_iff.mp hs).1
  have hfacts : ∀ {home k}, .stored home k ∈ i.facts → home = .activation f.id ∧ k = s.index := by
    intro home k hφ
    simpa [Instr.facts, ho, hslot, Slot.fact, hh] using hφ
  have hself : ∀ k slot, f.slots[k]? = some slot → k = s.index →
      E.Gives (E.excused (.stored (.activation f.id) k)) globals
        ((fr.slots.setIfInBounds s.index v).getD k .zero) slot.ty := by
    rintro k slot hk rfl
    cases hk.symm.trans hs
    simpa [Array.getD, hlt] using hv
  have hother : ∀ k, k ≠ s.index →
      (fr.slots.setIfInBounds s.index v).getD k .zero = fr.slots.getD k .zero := by
    intro k hk
    simp [Array.getD_eq_getD_getElem?, Array.getElem?_setIfInBounds_ne (Ne.symm hk)]
  refine ⟨h.args, h.registers, h.results, fun j hj hr => ?_, by simpa using h.slots,
    fun k slot hk => ?_, fun k slot hk hr => ?_, fun k hr => ?_⟩
  · rcases List.mem_append.mp hr with hr | hr
    · exact h.computed j hj hr
    · obtain rfl := hl.sound.eq_of_ref_eq hj hi (List.mem_singleton.mp hr)
      have hvoid : j.ref.ty = .void := by rw [(hl.legal j hi).type, Operation.resultTy, ho]
      change E.Gives _ globals (fr.result j.ref) j.ref.ty
      rw [Frame.result_of_register_eq_none ((hl.legal j hi).register.mpr hvoid), hvoid]
      exact .void
  · by_cases he : k = s.index
    · exact (hself k slot hk he).toHolds
    · exact (hother k he).symm ▸ h.held k slot hk
  · by_cases he : k = s.index
    · exact hself k slot hk he
    · refine (hother k he).symm ▸ h.stored k slot hk ((recorded_append hl hi hr).resolve_right ?_)
      exact fun hφ => he (hfacts hφ).2
  · refine h.assigned k ((recorded_append hl hi hr).resolve_right fun hφ => ?_)
    cases (hfacts hφ).1

theorem assigned_store {k : Nat} {s : Slot}
    (hv : E.Gives (E.excused (.stored .module k)) globals v ty)
    (hk : E.module.globals[k]? = some s) (hty : s.ty = ty) (hg : E.Globals globals) :
    E.Assigned (globals.setIfInBounds k v) k ∧
      ∀ j, E.Assigned globals j → E.Assigned (globals.setIfInBounds k v) j := by
  have hlt : k < globals.size := hg.size ▸ (List.getElem?_eq_some_iff.mp hk).1
  have hself : E.Assigned (globals.setIfInBounds k v) k := by
    intro slot n hslot hn hnone
    cases hk.symm.trans hslot
    have hval : (globals.setIfInBounds k v).getD k .zero = v := by simp [Array.getD, hlt]
    exact hv.there n (hty.symm.trans hn) (hval ▸ hnone)
  refine ⟨hself, fun j hj => ?_⟩
  by_cases he : j = k
  · exact he ▸ hself
  · intro slot n hslot hn hnone
    refine hj slot n hslot hn ?_
    simpa [Array.getD_eq_getD_getElem?, Array.getElem?_setIfInBounds_ne (Ne.symm he)] using hnone

theorem Globals.store (hg : E.Globals globals) {k : Nat} {s : Slot}
    (hv : E.Gives (E.excused (.stored .module k)) globals v ty)
    (hk : E.module.globals[k]? = some s) (hty : s.ty = ty) :
    E.Globals (globals.setIfInBounds k v) := by
  have hlt : k < globals.size := hg.size ▸ (List.getElem?_eq_some_iff.mp hk).1
  have hmono := (assigned_store hv hk hty hg).2
  refine ⟨by simpa using hg.size, fun j slot hj => ?_⟩
  by_cases he : j = k
  · subst he
    cases hk.symm.trans hj
    have hval : (globals.setIfInBounds j v).getD j .zero = v := by simp [Array.getD, hlt]
    rw [hval, hty]
    exact hv.toHolds.mono hmono
  · have hval : (globals.setIfInBounds k v).getD j .zero = globals.getD j .zero := by
      simp [Array.getD_eq_getD_getElem?, Array.getElem?_setIfInBounds_ne (Ne.symm he)]
    rw [hval]
    exact (hg.holds j slot hj).mono hmono

theorem Fills.storeGlobal (hl : f.Lawful E.module E.reach) (h : E.Fills globals f ds fr)
    (hg : E.Globals globals) (hi : i ∈ RealScript.code f.blocks) {s : Slot} (ho : i.op = .store)
    (hslot : i.slot = some s) (hh : s.home = .module) (hs : E.module.globals[s.index]? = some s)
    (hv : E.Gives (E.excused (.stored .module s.index)) globals v s.ty) :
    E.Fills (globals.setIfInBounds s.index v) f (ds ++ [i.ref]) fr := by
  have hmono := (assigned_store hv hs rfl hg).2
  have hfacts : ∀ {home k}, .stored home k ∈ i.facts → home = .module ∧ k = s.index := by
    intro home k hφ
    simpa [Instr.facts, ho, hslot, Slot.fact, hh] using hφ
  have h' := h.mono hmono
  refine ⟨h'.args, h'.registers, h'.results, fun j hj hr => ?_, h'.slots, h'.held,
    fun k slot hk hr => ?_, fun k hr => ?_⟩
  · rcases List.mem_append.mp hr with hr | hr
    · exact h'.computed j hj hr
    · obtain rfl := hl.sound.eq_of_ref_eq hj hi (List.mem_singleton.mp hr)
      have hvoid : j.ref.ty = .void := by rw [(hl.legal j hi).type, Operation.resultTy, ho]
      rw [Frame.result_of_register_eq_none ((hl.legal j hi).register.mpr hvoid), hvoid]
      exact .void
  · refine h'.stored k slot hk ((recorded_append hl hi hr).resolve_right fun hφ => ?_)
    cases (hfacts hφ).1
  · rcases recorded_append hl hi hr with hr | hφ
    · exact h'.assigned k hr
    · rw [(hfacts hφ).2]
      exact (assigned_store hv hs rfl hg).1

end Setting

end RealScript
