import RealScript.Proofs.Code.Typed
import RealScript.Proofs.Machine.Traces

/-! # Verified code runs safely

Verification looks at one instruction after the other. If the code was built and names only what is
there, then no run of it looks for a register, a slot, an argument or a block that does not exist.
-/

namespace RealScript

def Value.HasType (ok : FuncRef → Prop) (v : Value) : Ty → Prop
  | .real | .bool => ∃ x, v = .number x
  | .collection => ∀ f, v ≠ .function f
  | .func n => v = .zero ∨ ∃ r, v = .function (some r) ∧ ok r ∧
      r.params = List.replicate n .real ∧ r.ret = .real
  | .void => v = .zero

theorem Value.hasType_zero (ok : FuncRef → Prop) (ty : Ty) : Value.zero.HasType ok ty := by
  cases ty with
  | real | bool => exact ⟨0, rfl⟩
  | collection => exact nofun
  | func n => exact .inl rfl
  | void => rfl

theorem getD_of_forall₂ {α β : Type} {R : α → β → Prop} {xs : List α} {ys : List β}
    (h : List.Forall₂ R xs ys) {k : Nat} {y : β} (hy : ys[k]? = some y) (d : α) :
    R (xs.getD k d) y := by
  induction h generalizing k with
  | nil => cases hy
  | cons hxy _ ih =>
    cases k with
    | zero =>
      cases hy
      exact hxy
    | succ k => exact ih hy

/-! ## What typed instructions ask for -/

structure Value.Types (R : Value → Ty → Prop) (ok : FuncRef → Prop) : Prop where
  number : ∀ x ty, ty = .real ∨ ty = .bool → R (.number x) ty
  collection : ∀ xs, R (.collection xs) .collection
  void : R .zero .void
  function : ∀ v n, R v (.func n) → v.toFunction = none ∨ ∃ r, v = .function (some r) ∧ ok r ∧
    r.params = List.replicate n .real ∧ r.ret = .real

inductive Instr.Asks (R : Value → Ty → Prop) (ok : FuncRef → Prop) (ret : Ty) (i : Instr)
    (slots globals : Array Value) : Effect → Prop where
  | computed {v : Value} : i.op ≠ .store → R v i.ref.ty → Asks R ok ret i slots globals
    (.value v slots globals)
  | storeGlobal {s : Slot} {v : Value} : i.op = .store → i.slot = some s → s.home =
    .module → R v s.ty →
      Asks R ok ret i slots globals (.value .zero slots (globals.setIfInBounds s.index v))
  | storeLocal {s : Slot} {v : Value} : i.op = .store → i.slot = some s → s.home ≠
    .module → R v s.ty →
      Asks R ok ret i slots globals (.value .zero (slots.setIfInBounds s.index v) globals)
  | callMissing (args : List Value) : i.op ≠ .store → Asks R ok ret i slots globals
    (.call none args)
  | call {r : FuncRef} {args : List Value} : i.op ≠ .store → ok r → List.Forall₂ R args r.params →
      r.ret = i.ref.ty → Asks R ok ret i slots globals (.call (some r) args)
  | jump (t : Option BlockRef) : i.op ≠ .store → Asks R ok ret i slots globals (.jump t)
  | ret {v : Value} : i.op ≠ .store → R v ret → Asks R ok ret i slots globals (.ret v)

theorem Frame.operands_of_operand {R : Value → Ty → Prop} {fr : Frame} {xs : List Operand}
    (h : ∀ x ∈ xs, ∃ v, fr.operand? x = some v ∧ R v x.ty) :
    ∃ vs, fr.operands? xs = some vs ∧ List.Forall₂ R vs (xs.map Operand.ty) := by
  induction xs with
  | nil => exact ⟨[], rfl, .nil⟩
  | cons x xs ih =>
    obtain ⟨v, hv, hR⟩ := h x List.mem_cons_self
    obtain ⟨vs, hvs, hRs⟩ := ih fun y hy => h y (List.mem_cons_of_mem _ hy)
    exact ⟨v :: vs, by simp only [operands?, hv, hvs], .cons hR hRs⟩

theorem Instr.effect_of_isNumeric {i : Instr} (ho : i.op.isNumeric = true) {fr : Frame}
    (hx : ∀ x ∈ i.args, ∃ v, fr.operand? x = some v) (globals : Array Value) :
    ∃ z, i.effect fr globals = .value (.number z) fr.slots globals := by
  obtain ⟨vs, hvs⟩ : ∃ vs, fr.operands? (fr.demanded i.toOperation) = some vs := by
    refine Frame.operands?_isSome fun x h he => ?_
    obtain ⟨v, hv⟩ := hx x ((fr.demanded_sublist _).subset h)
    rw [he] at hv
    cases hv
  simp only [Instr.effect, hvs, Instr.apply]
  cases hop : i.op <;> simp only [hop, Opcode.isNumeric, Bool.false_eq_true] at ho <;>
    simp only [Opcode.isNumeric, if_true, Opcode.compute] <;> exact ⟨_, rfl⟩

theorem Instr.asks {R : Value → Ty → Prop} {ok : FuncRef → Prop} (hR : Value.Types R ok) {ret : Ty}
    {i : Instr} {fr : Frame} {globals : Array Value} (htyped : i.toOperation.Typed ret)
    (hty : i.ref.ty = i.toOperation.resultTy)
    (hop : ∀ x ∈ i.args, ∃ v, fr.operand? x = some v ∧ R v x.ty)
    (hcallee : ∀ c, i.callee = some c → ok c)
    (hload : ∀ s, i.op = .load → i.slot = some s →
      R ((if s.isGlobal then globals else fr.slots).getD s.index .zero) s.ty) :
    i.Asks R ok ret fr.slots globals (i.effect fr globals) := by
  obtain ⟨vs, hvs, hall⟩ := Frame.operands_of_operand hop
  by_cases hnum : i.op.isNumeric = true
  · obtain ⟨z, hz⟩ := effect_of_isNumeric hnum (fun x hx => (hop x hx).imp fun _ h => h.1) globals
    rw [hz]
    refine .computed (fun ho => by simp [ho, Opcode.isNumeric] at hnum) (hR.number z _ ?_)
    rw [hty]
    unfold Operation.resultTy
    cases ho : i.op <;> simp [ho, Opcode.isNumeric] at hnum <;> simp
  -- The operations that look at all operands see values of the types that were asked for.
  have heffect : ∀ n, (i.args.map Operand.ty).length ≤ n → fr.demanded i.toOperation =
    i.args.take n → i.effect fr globals = i.apply vs fr.slots globals := by
    intro n hn hd
    rw [List.length_map] at hn
    rw [Instr.effect, hd, List.take_of_length_le hn, hvs]
  unfold Operation.Typed at htyped
  unfold Operation.resultTy at hty
  cases ho : i.op <;> simp only [ho] at htyped hty <;>
    simp only [ho, Opcode.isNumeric, not_true_eq_false] at hnum
  case constColl =>
    rw [heffect 0 (by simp [htyped]) (by simp [Frame.demanded, ho]), Instr.apply, ho]
    exact .computed (by simp [ho]) (hty ▸ hR.collection _)
  case makeColl =>
    rw [heffect i.args.length (by simp) (by simp [Frame.demanded, ho]), Instr.apply, ho]
    exact .computed (by simp [ho]) (hty ▸ hR.collection _)
  case load =>
    obtain ⟨⟨s, hslot⟩, hargs⟩ := htyped
    rw [heffect 0 (by simp [hargs]) (by simp [Frame.demanded, ho]), Instr.apply, ho]
    refine .computed (by simp [ho]) ?_
    rw [hty, hslot]
    exact hload s ho hslot
  case store =>
    obtain ⟨s, hslot, hargs⟩ := htyped
    rw [heffect 1 (by simp [hargs]) (by simp [Frame.demanded, ho]), Instr.apply, ho]
    rw [hargs] at hall
    obtain ⟨v, _, hv, hnil, rfl⟩ := List.forall₂_cons_right_iff.mp hall
    cases hnil
    simp only [hslot, List.headD_cons]
    by_cases hh : s.home = .module
    · rw [if_pos (by simp [Slot.isGlobal, hh])]
      exact .storeGlobal ho hslot hh hv
    · rw [if_neg (by simp [Slot.isGlobal, hh])]
      exact .storeLocal ho hslot hh hv
  case call =>
    obtain ⟨c, hc, hargs⟩ := htyped
    rw [heffect i.args.length (by simp) (by simp [Frame.demanded, ho]), Instr.apply, ho]
    rw [hargs] at hall
    simp only [hc]
    exact .call (by simp [ho]) (hcallee c hc) hall (by simp [hty, hc])
  case callIndirect =>
    obtain ⟨n, hargs⟩ := htyped
    obtain ⟨x, xs, ha, hxty, hxs⟩ := List.map_eq_cons_iff.mp hargs
    obtain ⟨v, hx, hv⟩ := hop x (by simp [ha])
    rw [hxty] at hv
    rcases hR.function v n hv with hnone | ⟨r, rfl, hok, hparams, hret⟩
    · have hd : fr.demanded i.toOperation = [x] := by simp [Frame.demanded, ho, ha, hx, hnone]
      rw [Instr.effect, hd]
      simp only [Frame.operands?, hx, Instr.apply, ho, List.headD_cons, hnone]
      exact .callMissing _ (by simp [ho])
    · rw [heffect i.args.length (by simp) (by simp [Frame.demanded, ho, ha, hx, Value.toFunction]),
        Instr.apply, ho]
      rw [hargs] at hall
      obtain ⟨v', us, -, hus, rfl⟩ := List.forall₂_cons_right_iff.mp hall
      obtain rfl : .function (some r) = v' := by
        rw [ha, Frame.operands?, hx] at hvs
        dsimp only at hvs
        split at hvs
        · cases hvs
        · exact (List.cons.inj (Option.some.inj hvs)).1
      exact .call (by simp [ho]) hok (hparams ▸ hus) (hret.trans hty.symm)
  case br =>
    rw [heffect 0 (by simp [htyped]) (by simp [Frame.demanded, ho]), Instr.apply, ho]
    exact .jump _ (by simp [ho])
  case condBr =>
    rw [heffect 1 (by simp [htyped]) (by simp [Frame.demanded, ho]), Instr.apply, ho]
    exact .jump _ (by simp [ho])
  case ret =>
    rw [heffect 1 (by rw [htyped]; split <;> simp) (by simp [Frame.demanded, ho]), Instr.apply, ho]
    refine .ret (by simp [ho]) ?_
    rw [htyped] at hall
    split at hall
    · cases hall
      rw [‹ret = .void›]
      exact hR.void
    · obtain ⟨v, _, hv, hnil, rfl⟩ := List.forall₂_cons_right_iff.mp hall
      exact hv

/-! ## Points that are safe -/

def Opcode.operands : Opcode → Nat
  | .store | .not | .toBool | .toReal | .callIndirect | .condBr => 1
  | .add | .sub | .mul | .div | .cmp | .and | .or | .xor => 2
  | .constColl | .makeColl | .load | .call | .br | .ret | .unknown _ => 0

def Opcode.exits : Opcode → Nat
  | .br => 1
  | .condBr => 2
  | _ => 0

/-- All that an instruction looks for is there, in the frame that it runs in or among the globals.
-/
structure Frame.Serves (fr : Frame) (globals : Array Value) (i : Instr) : Prop where
  known : ∀ n, i.op ≠ .unknown n
  filled : ∀ x ∈ i.args, x ≠ .hole
  operands : i.op.operands ≤ i.args.length
  registers : ∀ r, .result r ∈ i.args → ∃ k, r.register = some k ∧ k < fr.registers.size
  arguments : ∀ fn index name ty, .param fn index name ty ∈ i.args → index < fr.args.length
  target : ∀ k, i.ref.register = some k → k < fr.registers.size
  slot : i.op = .load ∨ i.op = .store →
    ∃ s, i.slot = some s ∧ s.index < (if s.isGlobal then globals else fr.slots).size
  callee : i.op = .call → i.callee ≠ none
  exits : i.op.exits ≤ i.targets.length

/-- A run can go on from the point or stops there for a reason: nothing is looked for that does not
exist. Behind the last instruction of a block comes a block of the same function. -/
def Point.Safe : Point → Prop
  | .call f args _ _ => f.native = false → f.blocks ≠ [] ∧ args.length = f.ref.params.length
  | .code act w =>
    match act.rest with
    | [] => ∃ b ∈ act.function.blocks, act.next = some b.ref
    | i :: _ => act.frame.Serves w.globals i
  | .native _ _ _ _ | .back _ _ => True
  | .fail e _ => e ≠ .missingOperand

theorem Operation.Typed.ne_void {ret : Ty} {o : Operation} (h : o.Typed ret)
    (hslot : ∀ s, o.slot = some s → s.ty ≠ .void)
    (hcallee : ∀ c, o.callee = some c → ∀ ty ∈ c.params, ty ≠ .void) {x : Operand}
    (hx : x ∈ o.args) :
    x.ty ≠ .void := by
  have hmem : x.ty ∈ o.args.map Operand.ty := List.mem_map_of_mem hx
  unfold Typed at h
  cases ho : o.op <;> simp only [ho] at h
  case constColl | br => simp [h] at hmem
  case load => simp [h.2] at hmem
  case makeColl => simp [h _ hmem]
  case store =>
    obtain ⟨s, hs, h⟩ := h
    rw [h, List.mem_singleton] at hmem
    exact hmem ▸ hslot s hs
  case call =>
    obtain ⟨c, hc, h⟩ := h
    exact hcallee c hc _ (h ▸ hmem)
  case callIndirect =>
    obtain ⟨n, h⟩ := h
    rw [h, List.mem_cons] at hmem
    rcases hmem with he | hmem
    · simp [he]
    · simp [List.eq_of_mem_replicate hmem]
  case ret =>
    rw [h] at hmem
    split at hmem
    · cases hmem
    · rw [List.mem_singleton.mp hmem]
      assumption
  all_goals
    rw [h] at hmem
    simp only [List.mem_cons, List.not_mem_nil, or_false, or_self] at hmem
    simp [hmem]

theorem Operation.Typed.operands_le {ret : Ty} {o : Operation} (h : o.Typed ret) :
    o.op.operands ≤ o.args.length := by
  rw [← List.length_map (f := Operand.ty)]
  unfold Typed at h
  cases ho : o.op <;> simp only [ho] at h <;> simp only [Opcode.operands, Nat.zero_le]
  case store =>
    obtain ⟨s, -, h⟩ := h
    simp [h]
  case callIndirect =>
    obtain ⟨n, h⟩ := h
    simp [h]
  all_goals simp [h]

theorem Frame.serves {m : Module} {f : Function} {labels : List BlockRef} {i : Instr} {fr : Frame}
    {globals : Array Value} (hfits : i.Fits f.registers labels)
    (htyped : i.toOperation.Typed f.ref.ret)
    (hslot : ∀ s, i.slot = some s → (s.home = .module ∧ m.globals[s.index]? = some s ∨
      s.home = .activation f.id ∧ f.slots[s.index]? = some s) ∧ s.ty ≠ .void)
    (hparams : ∀ k index name ty, .param k index name ty ∈ i.args → f.ref.params[index]? = some ty)
    (hcallee : ∀ c, i.callee = some c → ∀ ty ∈ c.params, ty ≠ .void)
    (hresults : ∀ r, .result r ∈ i.args → r.ty ≠ .void → ∃ k, r.register = some k ∧ k < f.registers)
    (hargs : fr.args.length = f.ref.params.length) (hregisters : fr.registers.size = f.registers)
    (hslots : fr.slots.size = f.slots.length) (hglobals : globals.size = m.globals.length) :
    fr.Serves globals i := by
  refine ⟨hfits.known, hfits.operands, htyped.operands_le, fun r hx => ?_,
    fun fn index name ty hx => ?_,
    fun k hk => hregisters ▸ hfits.register k hk, fun ho => ?_, fun ho => ?_, ?_⟩
  · obtain ⟨k, hk, hlt⟩ := hresults r hx
      (htyped.ne_void (x := .result r) (fun s hs => (hslot s hs).2) hcallee hx)
    exact ⟨k, hk, hregisters ▸ hlt⟩
  · rw [hargs]
    exact (List.getElem?_eq_some_iff.mp (hparams fn index name ty hx)).1
  · obtain ⟨s, hs⟩ : ∃ s, i.slot = some s := by
      unfold Operation.Typed at htyped
      rcases ho with ho | ho <;> simp only [ho] at htyped
      · exact htyped.1
      · obtain ⟨s, hs, -⟩ := htyped
        exact ⟨s, hs⟩
    refine ⟨s, hs, ?_⟩
    rcases (hslot s hs).1 with ⟨hh, hk⟩ | ⟨hh, hk⟩
    · rw [if_pos (by simp [Slot.isGlobal, hh]), hglobals]
      exact (List.getElem?_eq_some_iff.mp hk).1
    · rw [if_neg (by simp [Slot.isGlobal, hh]), hslots]
      exact (List.getElem?_eq_some_iff.mp hk).1
  · unfold Operation.Typed at htyped
    simp only [ho] at htyped
    obtain ⟨c, hc, -⟩ := htyped
    simp [hc]
  · cases ho : i.op <;> simp only [Opcode.exits, Nat.zero_le]
    · obtain ⟨t, ht⟩ := hfits.br ho
      simp [ht]
    · obtain ⟨yes, no, ht⟩ := hfits.condBr ho
      simp [ht]

/-! ## Machines with verified code -/

def Module.Lists (m : Module) (r : FuncRef) : Prop := ∃ f ∈ m.functions, f.ref = r

/-- What an instruction of a function names is there: slots of the function or of the module,
parameters of the function, and functions that the module lists. Those that are used as values are
functions of reals. -/
structure Instr.Owns (m : Module) (f : Function) (i : Instr) : Prop where
  slot : ∀ s, i.slot = some s → s.home = .module ∧ m.globals[s.index]? = some s ∨
    s.home = .activation f.id ∧ f.slots[s.index]? = some s
  params : ∀ k index name ty, .param k index name ty ∈ i.args → f.ref.params[index]? = some ty
  refs : ∀ r ∈ i.toOperation.refs, m.Lists r
  values : ∀ r, .func r ∈ i.args → (∀ ty ∈ r.params, ty = .real) ∧ r.ret = .real

/-- The action of a native function that keeps to the types of what it calls and of what it gives.
-/
def Action.Keeps (ok : FuncRef → Prop) (ret : Ty) : Action → Prop
  | .done v => v.HasType ok ret
  | .fail _ | .raise _ => True
  | .attempt none _ next => ∀ e, Keeps ok ret (next (.error e))
  | .attempt (some r) args next => ok r ∧ List.Forall₂ (Value.HasType ok) args r.params ∧
      (∀ v, v.HasType ok r.ret → Keeps ok ret (next (.ok v))) ∧ ∀ e, Keeps ok ret (next (.error e))
  | .proceed next | .enterPool next | .write _ next | .leave _ next => Keeps ok ret next
  | .read next => ∀ words, Keeps ok ret (next words)

structure Module.Stores (m : Module) (globals : Array Value) : Prop where
  size : globals.size = m.globals.length
  holds : ∀ (k : Nat) (slot : Slot), m.globals[k]? = some slot →
    (globals.getD k .zero).HasType m.Lists slot.ty

structure Machine.Vetted (m : Machine) : Prop where
  built : ∃ b : Builder, b.Built ∧ b.module = m.module
  verified : ∀ f ∈ m.module.functions, f.native = true ∨ f.verify = .ok ()
  owned : ∀ f ∈ m.module.functions, ∀ i ∈ code f.blocks, ∀ s, i.slot = some s → s.home = .module →
    m.module.globals[s.index]? = some s
  refs : ∀ f ∈ m.module.functions, ∀ i ∈ code f.blocks, ∀ r ∈ i.toOperation.refs, m.module.Lists r
  values : ∀ f ∈ m.module.functions, ∀ i ∈ code f.blocks, ∀ r, .func r ∈ i.args →
    (∀ ty ∈ r.params, ty = .real) ∧ r.ret = .real
  globals : ∀ s ∈ m.module.globals, s.ty ≠ .void
  slots : ∀ f ∈ m.module.functions, ∀ s ∈ f.slots, s.ty ≠ .void
  params : ∀ f ∈ m.module.functions, ∀ ty ∈ f.ref.params, ty ≠ .void
  natives : ∀ f ∈ m.module.functions, f.native = true → ∀ native, m.native? f.name = some native →
    ∀ args, List.Forall₂ (Value.HasType m.module.Lists) args f.ref.params →
      (native args).Keeps m.module.Lists f.ref.ret

structure Frame.Fits (ok : FuncRef → Prop) (f : Function) (fr : Frame) : Prop where
  args : List.Forall₂ (Value.HasType ok) fr.args f.ref.params
  registers : fr.registers.size = f.registers
  results : ∀ i ∈ code f.blocks, (fr.result i.ref).HasType ok i.ref.ty
  slots : fr.slots.size = f.slots.length
  held : ∀ (k : Nat) (slot : Slot), f.slots[k]? = some slot →
    (fr.slots.getD k .zero).HasType ok slot.ty

inductive Placed (bs : List Block) : List Instr → Option BlockRef → Prop where
  | inside {b : Block} {pre rest : List Instr} {i : Instr} : b ∈ bs → b.instrs = pre ++ i :: rest →
      Placed bs (i :: rest) none
  | leaving {c : Block} : c ∈ bs → Placed bs [] (some c.ref)

structure Machine.Runs (m : Machine) (f : Function) (act : Activation) (w : World) : Prop where
  function : act.function = f
  listed : f ∈ m.module.functions
  code : f.native = false
  globals : m.module.Stores w.globals
  frame : act.frame.Fits m.module.Lists f
  place : Placed f.blocks act.rest act.next

/-- The points that a run of a vetted machine passes, each in a call of some function. -/
def Machine.Permits (m : Machine) (f : Function) : Point → Prop
  | .call g args _ w => g = f ∧ f ∈ m.module.functions ∧
      List.Forall₂ (Value.HasType m.module.Lists) args f.ref.params ∧ m.module.Stores w.globals
  | .code act w => m.Runs f act w
  | .native g _ a w => g = f ∧ a.Keeps m.module.Lists f.ref.ret ∧ m.module.Stores w.globals
  | .back v w => v.HasType m.module.Lists f.ref.ret ∧ m.module.Stores w.globals
  | .fail e w => e ≠ .missingOperand ∧ m.module.Stores w.globals

namespace Value

theorem types_hasType (ok : FuncRef → Prop) : Types (HasType ok) ok where
  number x ty h := by rcases h with rfl | rfl <;> exact ⟨x, rfl⟩
  collection _ := nofun
  void := rfl
  function v n h := by
    rcases h with rfl | h
    · exact .inl rfl
    · exact .inr h

end Value

namespace Frame.Fits

variable {ok : FuncRef → Prop} {f : Function} {fr : Frame} {v : Value} {i : Instr}

theorem start {args : List Value} (h : List.Forall₂ (Value.HasType ok) args f.ref.params) :
    (Frame.ofFunction f args).Fits ok f where
  args := h
  registers := by simp [ofFunction]
  results i _ := by
    have hzero : (ofFunction f args).result i.ref = .zero := by
      unfold result ofFunction
      cases i.ref.register with
      | none => rfl
      | some n => by_cases hn : n < f.registers <;> simp [hn]
    exact hzero ▸ Value.hasType_zero ok _
  slots := by simp [ofFunction]
  held k slot hs := by
    have hk := (List.getElem?_eq_some_iff.mp hs).1
    have hzero : (ofFunction f args).slots.getD k .zero = .zero := by simp [ofFunction,
      Array.getD, hk]
    rw [hzero]
    exact Value.hasType_zero ok _

theorem record (ht : f.Tidy) (h : fr.Fits ok f) (hi : i ∈ code f.blocks)
    (hv : v.HasType ok i.ref.ty) :
    (fr.record i.ref v).Fits ok f where
  args := by simpa using h.args
  registers := by simpa using h.registers
  results j hj := by
    by_cases hne : j.ref.register = none ∨ j.ref.register ≠ i.ref.register
    · rw [result_record_of_ne hne]
      exact h.results j hj
    · obtain ⟨hn, he⟩ := not_or.mp hne
      have he := not_not.mp he
      obtain ⟨k, hk⟩ := Option.ne_none_iff_exists'.mp hn
      have hlt : k < fr.registers.size := h.registers ▸ (ht.instr j hj).register k hk
      rw [ref_eq_of_register_eq ht.registers hj hi hn he, result_record_self (he ▸ hk) hlt]
      exact hv
  slots := by simpa using h.slots
  held := by simpa using h.held

theorem store (h : fr.Fits ok f) {s : Slot} (hs : f.slots[s.index]? = some s)
    (hv : v.HasType ok s.ty) :
    Frame.Fits ok f { fr with slots := fr.slots.setIfInBounds s.index v } where
  args := h.args
  registers := h.registers
  results := h.results
  slots := by simpa using h.slots
  held k slot hk := by
    by_cases he : k = s.index
    · subst he
      have hlt : s.index < fr.slots.size := h.slots ▸ (List.getElem?_eq_some_iff.mp hs).1
      cases hs.symm.trans hk
      simpa [Array.getD, hlt] using hv
    · have := h.held k slot hk
      simpa [Array.getD_eq_getD_getElem?, Array.getElem?_setIfInBounds_ne (Ne.symm he)] using this

end Frame.Fits

theorem Module.Stores.store {m : Module} {globals : Array Value} (h : m.Stores globals) {s : Slot}
    {v : Value} (hs : m.globals[s.index]? = some s) (hv : v.HasType m.Lists s.ty) :
    m.Stores (globals.setIfInBounds s.index v) where
  size := by simpa using h.size
  holds k slot hk := by
    by_cases he : k = s.index
    · subst he
      have hlt : s.index < globals.size := h.size ▸ (List.getElem?_eq_some_iff.mp hs).1
      cases hs.symm.trans hk
      simpa [Array.getD, hlt] using hv
    · have := h.holds k slot hk
      simpa [Array.getD_eq_getD_getElem?, Array.getElem?_setIfInBounds_ne (Ne.symm he)] using this

theorem Module.Stores.resize {m : Module} {w : World} (h : ∀ (k : Nat) (slot : Slot),
    m.globals[k]? = some slot → (w.globals.getD k .zero).HasType m.Lists slot.ty) :
    m.Stores (w.resizeGlobals m.globals.length).globals := by
  have hget : ∀ k < m.globals.length,
      (w.resizeGlobals m.globals.length).globals.getD k .zero = w.globals.getD k .zero := by
    intro k hk
    unfold World.resizeGlobals
    split
    · simp only [Array.getD_eq_getD_getElem?, Array.getElem?_append]
      split
      · rfl
      · rename_i hk'
        rw [(Array.getElem?_eq_none (Nat.not_lt.mp hk') : w.globals[k]? = none),
          Array.getElem?_replicate]
        split <;> rfl
    · simp only [Array.getD_eq_getD_getElem?, Array.getElem?_extract, Nat.sub_zero, Nat.zero_add]
      rw [if_pos (by omega)]
  refine ⟨?_, fun k slot hk => ?_⟩
  · unfold World.resizeGlobals
    split <;> simp <;> omega
  · rw [hget k (List.getElem?_eq_some_iff.mp hk).1]
    exact h k slot hk

namespace Machine

variable {m : Machine} {f : Function} {act : Activation} {w : World}

namespace Vetted

theorem tidy (h : m.Vetted) : m.module.Tidy := by
  obtain ⟨b, hb, he⟩ := h.built
  exact he ▸ hb.tidy

section

variable (h : m.Vetted) (hf : f ∈ m.module.functions)

include h hf

theorem function : m.module.function? f.id = some f := by
  obtain ⟨k, hk⟩ := List.getElem?_of_mem (List.mem_filter.mp hf).1
  have hk : m.module.function? k = some f := by simpa [Module.function?] using hk
  rwa [h.tidy.id k f hk]

theorem resulting : f.Resulting := by
  obtain ⟨b, hb, he⟩ := h.built
  exact hb.resulting f.id f (he ▸ h.function hf)

theorem verify (hn : f.native = false) : f.verify = .ok () :=
  (h.verified f hf).resolve_left (by simp [hn])

theorem holds : f.Holds := by
  obtain ⟨b, hb, he⟩ := h.built
  exact hb.holds.1 f.id f (he ▸ h.function hf)

theorem owns {i : Instr} (hi : i ∈ RealScript.code f.blocks) : i.Owns m.module f := by
  have hholds := h.holds hf
  have hn : f.native = false := by
    cases hn : f.native with
    | false => rfl
    | true =>
      rw [hholds.native hn] at hi
      cases hi
  obtain ⟨c, hc, hic⟩ := RealScript.mem_code.mp hi
  have hv := (Function.block_of_verify hn (h.verify hf hn) hc).2.2 i hic
  refine ⟨fun s hs => ?_, fun k index name ty hx => ?_, h.refs f hf i hi, h.values f hf i hi⟩
  · have hhome : s.home = .module ∨ s.home = .activation f.id :=
      Function.home_of_verifyOperation hv hs ((h.resulting hf i hi).slot (by simp [hs]))
    rcases hhome with hh | hh
    · exact .inl ⟨hh, h.owned f hf i hi s hs hh⟩
    · exact .inr ⟨hh, hholds.named i hi s hs hh⟩
  · have hplain := ((h.tidy.function _ _ (h.function hf)).instr i hi).plain
    obtain ⟨_, _, hx'⟩ := Function.operands_of_verifyOperation hplain hv _ hx
    obtain rfl := Function.param_of_verifyOperand hx'
    exact hholds.params i hi index name ty hx

end

theorem find (h : m.Vetted) {r : FuncRef} (hr : m.module.Lists r) :
    ∃ g ∈ m.module.functions, g.ref = r ∧ m.module.function? r.id = some g := by
  obtain ⟨g, hg, rfl⟩ := hr
  exact ⟨g, hg, rfl, h.function hg⟩

end Vetted

section Steps

variable {i : Instr} {is : List Instr}

theorem Runs.mem_code (h : m.Runs f act w) (hr : act.rest = i :: is) :
    act.next = none ∧ ∃ b ∈ f.blocks, ∃ pre, b.instrs = pre ++ i :: is := by
  have hp := h.place
  rw [hr] at hp
  generalize act.next = next at hp
  cases hp with
  | inside hb he => exact ⟨rfl, _, hb, _, he⟩

section

variable (V : m.Vetted) (h : m.Runs f act w) (hr : act.rest = i :: is)

include V h hr

theorem Runs.typed : i ∈ RealScript.code f.blocks ∧ i.toOperation.Typed f.ref.ret ∧
      i.Fits f.registers (f.blocks.map (·.ref)) := by
  obtain ⟨-, b, hb, pre, he⟩ := h.mem_code hr
  have hmem : i ∈ RealScript.code f.blocks := RealScript.mem_code.mpr ⟨b, hb, by simp [he]⟩
  have ht := V.tidy.function _ _ (V.function h.listed)
  have hv := V.verify h.listed h.code
  exact ⟨hmem, Function.typed_of_verify ht h.code hv hmem,
    Function.fits_of_verifyOperation (ht.instr i hmem)
    ((Function.block_of_verify h.code hv hb).2.2 i (by simp [he]))⟩

theorem Runs.defined {r : ResultRef} (hx : .result r ∈ i.args) :
    ∃ j ∈ RealScript.code f.blocks, j.ref = r := by
  obtain ⟨hmem, -⟩ := h.typed V hr
  obtain ⟨b, hb, hib⟩ := RealScript.mem_code.mp hmem
  have ht := V.tidy.function _ _ (V.function h.listed)
  obtain ⟨_, _, hw⟩ := Function.operands_of_verifyOperation (ht.instr i hmem).plain
    ((Function.block_of_verify h.code (V.verify h.listed h.code) hb).2.2 i hib) _ hx
  exact Function.defined_of_verifyOperand hw

theorem Runs.operand {x : Operand}
    (hx : x ∈ i.args) : ∃ v, act.frame.operand? x = some v ∧ v.HasType m.module.Lists x.ty := by
  obtain ⟨hmem, -, hfits⟩ := h.typed V hr
  have howns := V.owns h.listed hmem
  cases x with
  | real x => exact ⟨.number x, rfl, x, rfl⟩
  | truth b => exact ⟨.number _, rfl, _, rfl⟩
  | param k index name ty =>
    exact ⟨_, rfl, getD_of_forall₂ h.frame.args (howns.params k index name ty hx) _⟩
  | func r =>
    obtain ⟨hparams, hret⟩ := howns.values r hx
    have hrefs : r ∈ i.toOperation.refs :=
      List.mem_append_right _ (List.mem_filterMap.mpr ⟨.func r, hx, rfl⟩)
    exact ⟨_,
      rfl, .inr ⟨r, rfl, howns.refs r hrefs, List.eq_replicate_iff.mpr ⟨rfl, hparams⟩, hret⟩⟩
  | result r =>
    obtain ⟨j, hj, rfl⟩ := h.defined V hr hx
    exact ⟨_, rfl, h.frame.results j hj⟩
  | hole => exact absurd rfl (hfits.operands _ hx)

theorem Runs.asks :
    i.Asks (Value.HasType m.module.Lists) m.module.Lists f.ref.ret act.frame.slots w.globals
      (i.effect act.frame w.globals) := by
  obtain ⟨hmem, htyped, -⟩ := h.typed V hr
  have howns := V.owns h.listed hmem
  refine Instr.asks (Value.types_hasType _) htyped (V.resulting h.listed i hmem).type
    (fun x hx => h.operand V hr hx) (fun c hc => howns.refs c
      (List.mem_append_left _ (by simp [hc])))
    fun s _ hs => ?_
  rcases howns.slot s hs with ⟨hh, hk⟩ | ⟨hh, hk⟩
  · rw [if_pos (by simp [Slot.isGlobal, hh])]
    exact h.globals.holds s.index s hk
  · rw [if_neg (by simp [Slot.isGlobal, hh])]
    exact h.frame.held s.index s hk

theorem Runs.serves : act.frame.Serves w.globals i := by
  obtain ⟨hmem, htyped, hfits⟩ := h.typed V hr
  have howns := V.owns h.listed hmem
  refine Frame.serves hfits htyped (fun s hs => ⟨howns.slot s hs, ?_⟩) howns.params (fun c hc => ?_)
    (fun r hx hnv => ?_) h.frame.args.length_eq h.frame.registers h.frame.slots h.globals.size
  · rcases howns.slot s hs with ⟨-, hk⟩ | ⟨-, hk⟩
    · exact V.globals s (List.mem_of_getElem? hk)
    · exact V.slots f h.listed s (List.mem_of_getElem? hk)
  · obtain ⟨g, hg, rfl⟩ := howns.refs c (List.mem_append_left _ (by simp [hc]))
    exact V.params g hg
  · have ht := V.tidy.function _ _ (V.function h.listed)
    obtain ⟨j, hj, rfl⟩ := h.defined V hr hx
    obtain ⟨k, hk⟩ := Option.ne_none_iff_exists'.mp
      (fun hn => hnv ((V.resulting h.listed j hj).register.mp hn))
    exact ⟨k, hk, (ht.instr j hj).register k hk⟩

end

end Steps

def Follows (m : Machine) (f : Function) (act : Activation) (w : World) : Turn → Prop
  | .go act' w' => m.Runs f act' w'
  | .call g args => m.Permits g (.call g args (act.depth + 1) w) ∧
      ∀ v w', m.Permits g (.back v w') → m.Runs f (act.receive v) w'
  | .done v => v.HasType m.module.Lists f.ref.ret
  | .fail e w' => e ≠ .missingOperand ∧ w'.globals = w.globals

section

variable (V : m.Vetted) (h : m.Runs f act w)

include V h

theorem Runs.transition (hr : act.rest = []) : m.Follows f act w (m.turn act w) := by
  have hp := h.place
  rw [hr] at hp
  generalize hn : act.next = next at hp
  cases hp with
  | @leaving c hc =>
    have ht := V.tidy.function _ _ (V.function h.listed)
    have hv := V.verify h.listed h.code
    have hblock : m.block? act.function c.ref = some c := by
      rw [block?, h.function,
        show f.block? c.ref = some c from Optimize.find?_eq_some ht.nodup_ref hc]
      rfl
    simp only [turn, hr, Machine.transition, hn, hblock]
    split
    · exact ⟨by simp, rfl⟩
    · obtain ⟨-, hclosed, -⟩ := Function.block_of_verify h.code hv hc
      obtain ⟨i, is, hi⟩ := List.exists_cons_of_ne_nil hclosed.ne_nil
      refine ⟨h.function, h.listed, h.code, h.globals, h.frame, ?_⟩
      dsimp only
      rw [hi]
      exact .inside hc (show _ = [] ++ i :: is from hi)

theorem Runs.receive {i : Instr} {is : List Instr}
    (hr : act.rest = i :: is) (ht : i.isTerminator = false) {fr : Frame} {v : Value} {w' : World}
    (hg : m.module.Stores w'.globals) (hf : (fr.record i.ref v).Fits m.module.Lists f) :
    m.Runs f ({ act with frame := fr }.receive v) w' := by
  obtain ⟨hn, b, hb, pre, he⟩ := h.mem_code hr
  have hreceive : { act with frame := fr }.receive v =
      { act with frame := fr.record i.ref v, rest := is } := by
    simp only [Activation.receive, hr]
  rw [hreceive]
  refine ⟨h.function, h.listed, h.code, hg, hf, ?_⟩
  dsimp only
  rw [hn]
  obtain ⟨-, hclosed, -⟩ := Function.block_of_verify h.code (V.verify h.listed h.code) hb
  have hne : is ≠ [] := by
    intro hnil
    simp [(hclosed.isTerminator_iff he).mpr hnil] at ht
  obtain ⟨j, is, rfl⟩ := List.exists_cons_of_ne_nil hne
  exact .inside hb (show b.instrs = (pre ++ [i]) ++ j :: is by simpa using he)

theorem Runs.instruction {i : Instr} {is : List Instr}
    (hr : act.rest = i :: is) : m.Follows f act w (m.turn act w) := by
  have htidy := V.tidy.function _ _ (V.function h.listed)
  obtain ⟨hmem, -, hfits⟩ := h.typed V hr
  have hresult := V.resulting h.listed i hmem
  have hvoid : i.toOperation.resultTy = .void → i.ref.ty = .void := fun he => hresult.type.trans he
  rw [turn_cons _ hr]
  have hasks := h.asks V hr
  generalize he : i.effect act.frame w.globals = e at hasks
  cases hasks with
  | computed _ hv =>
    exact h.receive V hr (Instr.not_isTerminator_of_value he) h.globals
      (h.frame.record htidy hmem hv)
  | @storeGlobal s v ho hs hh hv =>
    refine h.receive V hr (Instr.not_isTerminator_of_value he) (h.globals.store ?_ hv)
      (h.frame.record htidy hmem ?_)
    · rcases (V.owns h.listed hmem).slot s hs with ⟨-, hk⟩ | ⟨hh', -⟩
      · exact hk
      · rw [hh] at hh'
        cases hh'
    · exact Value.hasType_zero _ _
  | @storeLocal s v ho hs hh hv =>
    have hslot : f.slots[s.index]? = some s := by
      rcases (V.owns h.listed hmem).slot s hs with ⟨hh', -⟩ | ⟨-, hk⟩
      · exact absurd hh' hh
      · exact hk
    exact h.receive V hr (Instr.not_isTerminator_of_value he) h.globals
      ((h.frame.store hslot hv).record htidy hmem (Value.hasType_zero _ _))
  | callMissing => exact ⟨by simp, rfl⟩
  | @call r args _ hok hargs hret =>
    obtain ⟨g, hg, rfl, hfind⟩ := V.find hok
    simp only [enact, Option.bind_some, hfind]
    refine ⟨⟨rfl, hg, hargs, h.globals⟩, fun v w' hback => ?_⟩
    exact h.receive V hr (Instr.not_isTerminator_of_call he) hback.2
      (h.frame.record htidy hmem (hret ▸ hback.1))
  | jump t ho =>
    obtain ⟨hn, b, hb, pre, hi⟩ := h.mem_code hr
    have hreceive : { act with next := t }.receive .zero =
        { act with next := t, frame := act.frame.record i.ref .zero, rest := is } := by
      simp only [Activation.receive, hr]
    have htarget : i.isTerminator = true ∧ t ∈ i.targets := by
      rcases i.target_of_jump he with ⟨ho, rfl⟩ | ⟨ho, k, hk, rfl⟩
      · obtain ⟨t, ht⟩ := hfits.br ho
        exact ⟨by simp [Instr.isTerminator, ho, Opcode.isTerminator], by simp [ht]⟩
      · obtain ⟨yes, no, ht⟩ := hfits.condBr ho
        refine ⟨by simp [Instr.isTerminator, ho, Opcode.isTerminator], ?_⟩
        rcases Nat.lt_succ_iff_lt_or_eq.mp hk with hk | rfl
        · obtain rfl : k = 0 := by omega
          simp [ht]
        · simp [ht]
    obtain ⟨-, hclosed, -⟩ := Function.block_of_verify h.code (V.verify h.listed h.code) hb
    obtain rfl := (hclosed.isTerminator_iff hi).mp htarget.1
    obtain ⟨_, hmap, rfl⟩ := hfits.targets t htarget.2
    obtain ⟨c, hc, rfl⟩ := List.mem_map.mp hmap
    simp only [enact, hreceive]
    exact ⟨h.function, h.listed, h.code, h.globals,
      h.frame.record htidy hmem (Value.hasType_zero _ _),
      .leaving hc⟩
  | ret _ hv => exact hv

theorem Runs.follows : m.Follows f act w (m.turn act w) := by
  cases hr : act.rest with
  | nil => exact h.transition V hr
  | cons i is => exact h.instruction V hr

end

theorem Vetted.start (V : m.Vetted) (hf : f ∈ m.module.functions) (hn : f.native = false)
    {args : List Value} (ha : List.Forall₂ (Value.HasType m.module.Lists) args f.ref.params)
    (d : Nat)
    (hg : m.module.Stores w.globals) : ∃ act, Activation.start? f args d = some act ∧
    m.Runs f act w := by
  have hv := V.verify hf hn
  obtain ⟨b, hb⟩ : ∃ b, f.blocks.head? = some b :=
    Option.ne_none_iff_exists'.mp (by simpa using (Function.verifyBlock_of_verify hn hv).1)
  have hmem := List.mem_of_mem_head? hb
  obtain ⟨i, is, hi⟩ := List.exists_cons_of_ne_nil (Function.block_of_verify hn hv hmem).2.1.ne_nil
  refine ⟨_, by rw [Activation.start?, hb]; rfl, rfl, hf, hn, hg, .start ha, ?_⟩
  dsimp only
  rw [hi]
  exact .inside hmem (show _ = [] ++ i :: is from hi)

theorem Vetted.contract (V : m.Vetted) : m.Contract (fun _ => False) m.Permits := by
  have hworld : ∀ {u u' : World}, u'.globals = u.globals → m.module.Stores u.globals →
      m.module.Stores u'.globals := fun he h => he ▸ h
  constructor
  · intro f p p' hp _ ha
    cases p with
    | call g args d w =>
      obtain ⟨rfl, hf, hargs, hg⟩ := hp
      simp only [advance] at ha
      cases hn : g.native with
      | true =>
        simp only [hn, if_true] at ha
        split at ha <;> obtain rfl := Advance.go.inj ha
        · exact ⟨by simp, hg⟩
        · exact ⟨rfl, V.natives g hf hn _ ‹_› args hargs, hg⟩
      | false =>
        obtain ⟨act, hact, hruns⟩ := V.start hf hn hargs d hg
        simp only [hn, Bool.false_eq_true, if_false, hact] at ha
        split at ha <;> obtain rfl := Advance.go.inj ha
        · exact ⟨by simp, hg⟩
        · exact hruns
    | code act w =>
      have ht := Runs.follows V hp
      simp only [advance] at ha
      split at ha <;> rename_i he <;> rw [he] at ht
      · cases ha
        exact ht
      · cases ha
      · cases ha
        exact ⟨ht, hp.globals⟩
      · cases ha
        exact ⟨ht.1, hworld ht.2 hp.globals⟩
    | native g d a w =>
      obtain ⟨rfl, hkeeps, hg⟩ := hp
      have hacts := acts_of_advanceNative ha
      have hstill := hacts.globals
      cases hacts with
      | done => exact ⟨hkeeps, hg⟩
      | proceed | enter => exact ⟨rfl, hkeeps, hg⟩
      | write | leave => exact ⟨rfl, hkeeps, hworld hstill hg⟩
      | missing => exact ⟨rfl, hkeeps _, hg⟩
      | misfit | unbound => exact ⟨rfl, hkeeps.2.2.2 _, hg⟩
      | read => exact ⟨rfl, hkeeps _, hworld hstill hg⟩
      | unread => exact ⟨by simp, hworld hstill hg⟩
      | _ => exact ⟨by simp, hg⟩
    | back | fail => cases ha
  · intro f p g args d w next hp _ ha
    rcases call_cases ha with ⟨act, rfl, hturn, rfl, rfl⟩ | ⟨g', e, r, after, rfl, -,
      hfind, rfl, rfl⟩
    · have ht := Runs.follows V hp
      rw [hturn] at ht
      refine ⟨_, ht.1, fun r x hx hr => ?_⟩
      cases r with
      | back v u =>
        cases hx
        exact ht.2 v u hr
      | fail e u =>
        cases e <;> cases hx
        exact hr
      | _ => cases hx
    · obtain ⟨rfl, ⟨hok, hargs, hnext, hfail⟩, hg⟩ := hp
      obtain ⟨c, hc, rfl, hfound⟩ := V.find hok
      cases hfound.symm.trans hfind
      refine ⟨_, ⟨rfl, hc, hargs, hg⟩, fun r x hx hr => ?_⟩
      cases r with
      | back v u =>
        cases hx
        exact ⟨rfl, hnext v hr.1, hr.2⟩
      | fail e u =>
        cases e <;> cases hx
        exact ⟨rfl, hfail _, hr.2⟩
      | _ => cases hx

theorem Vetted.safe_of_permits (V : m.Vetted) {p : Point} (hp : m.Permits f p) : p.Safe := by
  cases p with
  | call g args d w =>
    obtain ⟨rfl, hf, hargs, -⟩ := hp
    exact fun hn => ⟨(Function.verifyBlock_of_verify hn (V.verify hf hn)).1, hargs.length_eq⟩
  | code act w =>
    have hruns : m.Runs f act w := hp
    cases hr : act.rest with
    | nil =>
      simp only [Point.Safe, hr]
      have hplace := hruns.place
      rw [hr] at hplace
      generalize act.next = next at hplace ⊢
      cases hplace with
      | leaving hc => exact ⟨_, hruns.function.symm ▸ hc, rfl⟩
    | cons i is =>
      simp only [Point.Safe, hr]
      exact hruns.serves V hr
  | native | back => trivial
  | fail e w => exact hp.1

def opening (m : Machine) (f : Function) (w : World) : Point :=
  .call f [] 0 { w.resizeGlobals m.module.globals.length with clock := 0 }

theorem visits_of_run_missingOperand {n : Nat} {args : List Value} {d : Nat} {w' : World}
    (h : m.run n f args d w = .error .missingOperand w') :
    ∃ ps, m.Visits (.call f args d w) ps (.fail .missingOperand w') := by
  have hstops : ∀ fuel, (f.native = false ∧ m.run fuel f args d w = .error .missingOperand w') ∨
      m.invoke fuel f args d w = .error .missingOperand w' →
      ∃ ps, m.Visits (.call f args d w) ps (.fail .missingOperand w') := by
    rintro fuel (⟨hn, h⟩ | h)
    · have hs := (stopsAt_fuel (m := m) fuel).1 f args d w hn
      rw [h] at hs
      exact hs
    · have hs := (stopsAt_fuel (m := m) fuel).2.2 f args d w
      rw [h] at hs
      exact hs
  cases hn : f.native with
  | false => exact hstops n (.inl ⟨hn, h⟩)
  | true =>
    cases n with
    | zero =>
      rw [run] at h
      cases h
    | succ n =>
      rw [run] at h
      split at h
      · cases h
      · exact hstops n (.inr h)

end Machine

/-- An entry that calls a native function and returns what it gave by way of a slot. -/
def relayFunction : Function :=
  let start : BlockRef := ⟨1, 0, "entry"⟩
  let slot : Slot := ⟨"x", .real, .activation 1, 0⟩
  let one : FuncRef := ⟨0, "one", [], .real⟩
  { ref := ⟨1, "main", [], .real⟩
    paramNames := []
    slots := [slot]
    registers := 2
    emitted := 4
    labels := ["entry"]
    blocks := [⟨start, [(Draft.call one []).instr ⟨1, 0, some 0, .real⟩ start,
        (Draft.store slot (.result ⟨1, 0, some 0, .real⟩)).instr ⟨1, 1, none, .void⟩ start,
        (Draft.load slot).instr ⟨1, 2, some 1, .real⟩ start,
        (Draft.ret (some (.result ⟨1, 2, some 1, .real⟩))).instr ⟨1, 3, none, .void⟩ start]⟩] }

def relayModule : Module :=
  { name := "relay"
    store := #[{ ref := ⟨0, "one", [], .real⟩, paramNames := [], native := true }, relayFunction] }

theorem built_relayModule : Builder.Built ⟨relayModule, some ⟨1, 0, "entry"⟩⟩ := by
  have h₀ : Builder.Built { module := { name := "relay" } } := .empty _
  have hone : Module.declareNative { name := "relay" } "one" [] .real = .ok _ := rfl
  have h₁ := @Builder.Built.declare _ "main" [] .real _ _ (h₀.declareNative hone) rfl
  have h₂ := (h₁.addBlock 1 "entry" fun _ h => by cases h; rfl).moveTo (some ⟨1, 0, "entry"⟩)
    fun _ h => by cases h; exact ⟨_, _, rfl, rfl⟩
  have h₃ := @Builder.Built.allocate _ _ "x" .real _ h₂ rfl
  have h₄ := h₃.emit (.call ⟨0, "one", [], .real⟩ [])
    ⟨by simp [Draft.call], by simp [Draft.call]⟩ rfl
  have h₅ := h₄.emit (.store ⟨"x", .real, .activation 1, 0⟩ (.result ⟨1, 0, some 0, .real⟩))
    ⟨fun s hs => by cases hs; exact .inr ⟨1, _, rfl, List.mem_cons_self⟩, by simp [Draft.store]⟩ rfl
  have h₆ := h₅.emit (.load ⟨"x", .real, .activation 1, 0⟩)
    ⟨fun s hs => by cases hs; exact .inr ⟨1, _, rfl, List.mem_cons_self⟩, by simp [Draft.load]⟩ rfl
  exact h₆.emit (.ret (some (.result ⟨1, 2, some 1, .real⟩)))
    ⟨by simp [Draft.ret], by simp [Draft.ret]⟩ rfl

def relayMachine : Machine :=
  { module := relayModule, natives := [("one", fun _ => .done (.number 1))] }

theorem vetted_relayMachine : relayMachine.Vetted := by
  have hfunctions : ∀ f ∈ relayModule.functions,
      f = { ref := ⟨0, "one", [], .real⟩, paramNames := [], native := true } ∨
        f = relayFunction := by
    intro f hf
    simpa [relayModule] using (List.mem_filter.mp hf).1
  have hcode : ∀ f ∈ relayModule.functions, ∀ i ∈ code f.blocks, i ∈ code relayFunction.blocks := by
    intro f hf i hi
    rcases hfunctions f hf with rfl | rfl
    · cases hi
    · exact hi
  have hinstrs : ∀ i ∈ code relayFunction.blocks, (∀ s, i.slot = some s → s.home ≠ .module) ∧
      (∀ r ∈ i.toOperation.refs, r = ⟨0, "one", [], .real⟩) ∧ ∀ r, .func r ∉ i.args := by
    simp [code, relayFunction, Draft.instr, Draft.call, Draft.store, Draft.load, Draft.ret,
      Operation.refs]
  have hone : relayModule.Lists ⟨0, "one", [], .real⟩ := ⟨_, List.mem_cons_self, rfl⟩
  refine ⟨⟨_, built_relayModule, rfl⟩, ?_,
    fun f hf i hi s hs hh => absurd hh ((hinstrs i (hcode f hf i hi)).1 s hs),
    fun f hf i hi r hr => (hinstrs i (hcode f hf i hi)).2.1 r hr ▸ hone,
    fun f hf i hi r hr => absurd hr ((hinstrs i (hcode f hf i hi)).2.2 r),
    fun _ h => (by cases h), ?_, ?_, ?_⟩ <;> intro f hf <;>
    rcases hfunctions f hf with rfl | rfl
  · exact .inl rfl
  · exact .inr rfl
  · intro _ h
    cases h
  · intro s hs
    obtain rfl := List.mem_singleton.mp hs
    intro h
    cases h
  · intro _ h
    cases h
  · intro _ h
    cases h
  · intro _ native hn args _
    cases hn
    exact ⟨1, rfl⟩
  · intro h
    cases h

end RealScript
