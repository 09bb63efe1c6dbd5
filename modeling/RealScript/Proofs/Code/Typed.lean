import RealScript.Proofs.Code.Verified

/-! # Operands of the right types

Verified code has operands of the types that its operations ask for. This depends on the types of
the operands only, so it survives all changes to code that keep types.
-/

namespace RealScript

def Operation.refs (o : Operation) : List FuncRef := o.callee.toList ++ o.args.filterMap fun
    | .func f => some f
    | _ => none

def Operation.resultTy (o : Operation) : Ty := match o.op with
  | .constColl | .makeColl => .collection
  | .load => (o.slot.map (·.ty)).getD .void
  | .add | .sub | .mul | .div | .toReal | .callIndirect => .real
  | .cmp | .and | .or | .xor | .not | .toBool => .bool
  | .call => (o.callee.map (·.ret)).getD .void
  | .store | .br | .condBr | .ret | .unknown _ => .void

theorem Operation.resultTy_of_isArithmetic {o : Operation} (h : o.op.isArithmetic = true) :
    o.resultTy = .real := by
  unfold resultTy
  cases ho : o.op <;> rw [ho] at h <;> first | rfl | cases h

theorem Operation.resultTy_of_isLogical {o : Operation} (h : o.op.isLogical = true) :
    o.resultTy = .bool := by
  unfold resultTy
  cases ho : o.op <;> rw [ho] at h <;> first | rfl | cases h

/-- The operands have the types that the operation asks for, in a function with the given result. -/
def Operation.Typed (ret : Ty) (o : Operation) : Prop :=
  let tys := o.args.map Operand.ty
  match o.op with
  | .constColl | .br => tys = []
  | .load => (∃ s, o.slot = some s) ∧ tys = []
  | .makeColl => ∀ ty ∈ tys, ty = .real
  | .store => ∃ s, o.slot = some s ∧ tys = [s.ty]
  | .add | .sub | .mul | .div | .cmp => tys = [.real, .real]
  | .and | .or | .xor => tys = [.bool, .bool]
  | .not | .toReal | .condBr => tys = [.bool]
  | .toBool => tys = [.real]
  | .call => ∃ c, o.callee = some c ∧ tys = c.params
  | .callIndirect => ∃ n, tys = .func n :: List.replicate n .real
  | .ret => tys = if ret = .void then [] else [ret]
  | .unknown _ => False

namespace Function

open Stateful

variable {f : Function}

theorem ty_of_verifyOperand {op : Opcode} {want : Ty} {x : Operand}
    (h : f.verifyOperand op want x = .ok ()) : x.ty = want := by
  cases x with
  | hole => cases h
  | result | param =>
    obtain ⟨⟨⟩, -, h⟩ := except_bind_eq_ok h
    simpa using demand_eq_ok h
  | real | truth | func => simpa using demand_eq_ok h

theorem tys_of_verifyOperands {o : Operation} {want : Ty} {n : Nat}
    (h : f.verifyOperands o want n = .ok ()) : o.args.map Operand.ty = List.replicate n want := by
  obtain ⟨⟨⟩, hlen, h⟩ := except_bind_eq_ok h
  have hlen : o.args.length = n := by simpa using demand_eq_ok hlen
  refine List.eq_replicate_iff.mpr ⟨by simpa using hlen, fun ty hty => ?_⟩
  obtain ⟨x, hx, rfl⟩ := List.mem_map.mp hty
  exact ty_of_verifyOperand (forM_eq_ok h x hx)

theorem tys_of_verifyCall {op : Opcode} {args : List Operand} {params : List Ty}
    (hlen : args.length = params.length)
    (h : (args.zip params).forM (fun (x, ty) => f.verifyOperand op ty x) = .ok ()) :
    args.map Operand.ty = params := by
  refine List.ext_getElem (by simpa using hlen) fun k hk hk' => ?_
  rw [List.getElem_map]
  have hk : k < args.length := by simpa using hk
  have hmem : (args[k], params[k]) ∈ args.zip params := by
    rw [← List.getElem_zip (h := by rw [List.length_zip]; omega)]
    exact List.getElem_mem _
  exact ty_of_verifyOperand (forM_eq_ok h _ hmem)

theorem typed_of_verifyOperation {o : Operation} (hp : o.Plain) (h : f.verifyOperation o = .ok ()) :
    o.Typed f.ref.ret := by
  unfold verifyOperation at h
  unfold Operation.Typed
  cases ho : o.op <;> simp only [ho] at h ⊢
  case constColl | br => simp [hp.args (by simp [ho])]
  case load =>
    cases hs : o.slot with
    | none => simp [hs] at h
    | some s => exact ⟨⟨s, rfl⟩, by simp [hp.args (by simp [ho])]⟩
  case store =>
    cases hs : o.slot with
    | none => simp [hs] at h
    | some s =>
      simp only [hs] at h
      obtain ⟨⟨⟩, -, h⟩ := except_bind_eq_ok h
      exact ⟨s, rfl, tys_of_verifyOperands (by simpa using h)⟩
  case makeColl =>
    intro ty hty
    rw [tys_of_verifyOperands h] at hty
    exact List.eq_of_mem_replicate hty
  case call =>
    cases hc : o.callee with
    | none => simp [hc] at h
    | some c =>
      simp only [hc] at h
      obtain ⟨⟨⟩, hlen, h⟩ := except_bind_eq_ok h
      exact ⟨c, rfl, tys_of_verifyCall (by simpa using demand_eq_ok hlen) h⟩
  case callIndirect =>
    cases ha : o.args with
    | nil => simp [ha] at h
    | cons callee args =>
      simp only [ha] at h
      obtain ⟨⟨⟩, hcallee, h⟩ := except_bind_eq_ok h
      refine ⟨args.length, ?_⟩
      rw [List.map_cons, ty_of_verifyOperand hcallee]
      congr 1
      refine List.eq_replicate_iff.mpr ⟨by simp, fun ty hty => ?_⟩
      obtain ⟨x, hx, rfl⟩ := List.mem_map.mp hty
      exact ty_of_verifyOperand (forM_eq_ok h x hx)
  case condBr =>
    split at h
    · obtain ⟨⟨⟩, h, -⟩ := except_bind_eq_ok h
      exact tys_of_verifyOperands h
    · cases h
  case ret =>
    split at h
    · rw [if_pos ‹_›, List.map_eq_nil_iff]
      simpa using demand_eq_ok h
    · rw [if_neg ‹_›]
      exact tys_of_verifyOperands h
  case unknown => cases h
  all_goals exact tys_of_verifyOperands h

theorem typed_of_verify (ht : f.Tidy) (hn : f.native = false) (hv : f.verify = .ok ()) {i : Instr}
    (hi : i ∈ code f.blocks) : i.toOperation.Typed f.ref.ret := by
  obtain ⟨b, hb, hib⟩ := mem_code.mp hi
  exact typed_of_verifyOperation (ht.instr i hi).plain ((block_of_verify hn hv hb).2.2 i hib)

end Function

/-- The result of the instruction has the type of its operation, and a register unless that is void.
Only loads and stores have slots. -/
structure Instr.Resulting (i : Instr) : Prop where
  type : i.ref.ty = i.toOperation.resultTy
  register : i.ref.register = none ↔ i.ref.ty = .void
  slot : i.slot ≠ none → i.op = .load ∨ i.op = .store

def Function.Resulting (f : Function) : Prop := ∀ i ∈ code f.blocks, i.Resulting

theorem Function.mem_code_emit {f : Function} {point : BlockRef} {d : Draft} {i : Instr}
    (h : i ∈ code (f.emit point d).2.blocks) : i = f.nextInstr point d ∨ i ∈ code f.blocks := by
  obtain ⟨b, hb, hi⟩ := mem_code.mp h
  obtain ⟨c, hc, rfl⟩ := List.mem_map.mp hb
  dsimp only at hi
  split at hi
  · rcases List.mem_append.mp hi with hi | hi
    · exact .inr (mem_code.mpr ⟨c, hc, hi⟩)
    · exact .inl (List.mem_singleton.mp hi)
  · exact .inr (mem_code.mpr ⟨c, hc, hi⟩)

theorem Function.Resulting.emit {f : Function} (h : f.Resulting) (point : BlockRef) {d : Draft}
    (hd : d.ty = d.toOperation.resultTy) (hs : d.slot ≠ none → d.op = .load ∨ d.op = .store) :
    (f.emit point d).2.Resulting := by
  intro i hi
  rcases Function.mem_code_emit hi with rfl | hi
  · refine ⟨hd, ?_, hs⟩
    simp only [Function.nextInstr, Draft.instr, Function.newResult]
    split <;> simp_all
  · exact h i hi

theorem Build.Offered.resulting {α : Type} {op : Build α} (ho : op.Offered) {b b' : Builder} {x : α}
    (h : op b = .ok x b') (hb : ∀ k f, b.module.function? k = some f → f.Resulting) :
    ∀ k f, b'.module.function? k = some f → f.Resulting := by
  have hmodify : ∀ {j : Nat} {g : Function}, g.Resulting → ∀ k f,
      (b.module.modify j fun _ => g).function? k = some f → f.Resulting := by
    intro j g hg k f hf
    simp only [Module.function?, Module.modify, Array.getElem?_modify] at hf
    split at hf
    · obtain ⟨_, -, rfl⟩ := Option.map_eq_some_iff.mp hf
      exact hg
    · exact hb k f hf
  have hemit : ∀ {d : Draft} {y : Operand}, d.ty = d.toOperation.resultTy →
      (d.slot ≠ none → d.op = .load ∨ d.op = .store) → Build.emit d b = .ok y b' →
      ∀ k f, b'.module.function? k = some f → f.Resulting := by
    intro d y hd hs h
    obtain ⟨point, f, -, hf, -, -, rfl⟩ := Build.emit_eq_ok h
    exact hmodify ((hb _ _ hf).emit point hd hs)
  cases ho with
  | createBlock name =>
    obtain ⟨point, f, -, hf, -, rfl⟩ := Build.createBlock_eq_ok h
    refine hmodify fun i hi => hb _ _ hf i ?_
    simpa [Function.addBlock, code] using hi
  | allocate name ty =>
    obtain ⟨point, f, -, hf, -, rfl⟩ := Build.allocate_eq_ok h
    exact hmodify fun i hi => hb _ _ hf i hi
  | arithmetic op l r =>
    rw [Build.arithmetic] at h
    split at h
    · exact hemit (Operation.resultTy_of_isArithmetic ‹_›).symm (fun hs => absurd rfl hs) h
    · cases h
  | logic op l r =>
    rw [Build.logic] at h
    split at h
    · exact hemit (Operation.resultTy_of_isLogical ‹_›).symm (fun hs => absurd rfl hs) h
    · cases h
  | load => exact hemit rfl (fun _ => .inl rfl) h
  | store => exact hemit rfl (fun _ => .inr rfl) h
  | _ => exact hemit rfl (fun hs => absurd rfl hs) h

theorem Builder.Built.resulting {b : Builder} (h : b.Built) :
    ∀ k f, b.module.function? k = some f → f.Resulting := by
  have hnew : ∀ f : Function, f.blocks = [] → f.slots = [] → f.Resulting := by
    intro f hb _ i hi
    rw [hb] at hi
    cases hi
  induction h with
  | empty name => simp [Module.function?]
  | declare _ hd ih => exact (Module.forall_declare ih hnew hd).2.2
  | @declareNative b name params ret f m _ hd ih =>
    unfold Module.declareNative at hd
    cases hr : b.module.declare name params ret with
    | error e => rw [hr] at hd; cases hd
    | ok r =>
      rw [hr] at hd
      obtain ⟨-, rfl⟩ := Prod.mk.inj (Except.ok.inj hd)
      obtain ⟨hf, -, hm⟩ := Module.forall_declare ih hnew hr
      exact Module.forall_modify hm fun _ _ => hf
  | nameParams id names _ ih => exact Module.forall_modify ih fun f hf => ih id f hf
  | addBlock id name _ _ ih =>
    refine Module.forall_modify ih fun f hf i hi => ih id f hf i ?_
    simpa [Function.addBlock, code] using hi
  | newGlobal _ _ _ ih | truncateGlobals _ _ ih | moveTo _ _ _ ih => exact ih
  | remove name _ ih =>
    unfold Module.remove
    split
    · exact Module.forall_modify ih fun f hf => ih _ f hf
    · exact ih
  | createBlock _ h ih => exact (Build.Offered.createBlock _).resulting h ih
  | allocate _ h ih => exact (Build.Offered.allocate _ _).resulting h ih
  | emit _ ho _ h ih => exact ho.resulting h ih

/-- The slots of a function know their places. Its code names its own slots and parameters as they
are, and a native function has no code. -/
structure Function.Holds (f : Function) : Prop where
  slots : ∀ (k : Nat) (s : Slot), f.slots[k]? = some s → s.index = k ∧ s.home = .activation f.id
  named : ∀ i ∈ code f.blocks, ∀ s : Slot, i.slot = some s → s.home = .activation f.id →
    f.slots[s.index]? = some s
  params : ∀ i ∈ code f.blocks, ∀ index name ty, .param f.id index name ty ∈ i.args →
    f.ref.params[index]? = some ty
  native : f.native = true → f.blocks = []

namespace Function.Holds

variable {f : Function}

theorem of_empty (hb : f.blocks = []) (hs : f.slots = []) : f.Holds := by
  refine ⟨fun k s h => ?_, ?_, ?_, fun _ => hb⟩
  · simp [hs] at h
  all_goals simp [hb, code]

theorem addBlock (h : f.Holds) (hn : f.native = false) (name : String) :
    (f.addBlock name).2.Holds := by
  have hcode : code (f.addBlock name).2.blocks = code f.blocks := by
    simp [Function.addBlock, code]
  refine ⟨h.slots, by rw [hcode]; exact h.named, by rw [hcode]; exact h.params, fun ht => ?_⟩
  cases hn.symm.trans ht

theorem addSlot (h : f.Holds) (name : String) (ty : Ty) : (f.addSlot name ty).2.Holds := by
  refine ⟨fun k s hs => ?_, fun i hi s hs hh => ?_, h.params, h.native⟩
  · rw [Function.addSlot, List.getElem?_append] at hs
    split at hs
    · exact h.slots k s hs
    · obtain ⟨hlt, hs⟩ := List.getElem?_eq_some_iff.mp hs
      obtain rfl : (f.addSlot name ty).1 = s := by simpa [Function.addSlot] using hs
      have hk : k - f.slots.length < 1 := hlt
      exact ⟨show f.slots.length = k by omega, rfl⟩
  · have hold := h.named i hi s hs hh
    exact List.getElem?_append_left (List.getElem?_eq_some_iff.mp hold).1 ▸ hold

theorem emit {m : Module} (hm : m.Tidy) (hall : ∀ k g, m.function? k = some g → g.Holds)
    (hf : m.function? f.id = some f) (point : BlockRef) {d : Draft} (hd : d.toOperation.Issued m)
    (hb : f.blocks ≠ []) : (f.emit point d).2.Holds := by
  have h := hall _ _ hf
  refine ⟨h.slots, fun i hi s hs hh => ?_, fun i hi index name ty hx => ?_, fun hn => ?_⟩
  · rcases Function.mem_code_emit hi with rfl | hi
    · rcases hd.slot s hs with hg | ⟨k, g, hg, hmem⟩
      · cases hg.symm.trans hh
      · obtain ⟨j, hj⟩ := List.getElem?_of_mem hmem
        obtain ⟨hindex, hhome⟩ := (hall k g hg).slots j s hj
        obtain rfl : k = f.id := by
          have := hhome.symm.trans hh
          rw [hm.id k g hg] at this
          exact Home.activation.inj this
        cases hg.symm.trans hf
        exact hindex.symm ▸ hj
    · exact h.named i hi s hs hh
  · rcases Function.mem_code_emit hi with rfl | hi
    · obtain ⟨g, hg, hty⟩ := hd.params _ index name ty hx
      cases hg.symm.trans hf
      exact hty
    · exact h.params i hi index name ty hx
  · exact absurd (h.native hn) hb

end Function.Holds

theorem Module.exists_modify {m : Module} {j k : Nat} {g : Function → Function}
    (h : ∃ f, m.function? k = some f ∧ f.blocks ≠ [])
    (hg : ∀ f, m.function? j = some f → f.blocks ≠ [] → (g f).blocks ≠ []) :
    ∃ f, (m.modify j g).function? k = some f ∧ f.blocks ≠ [] := by
  obtain ⟨f, hf, hb⟩ := h
  simp only [Module.function?, Module.modify, Array.getElem?_modify]
  split
  · rename_i hj
    subst hj
    exact ⟨g f, congrArg (Option.map g) hf, hg f hf hb⟩
  · exact ⟨f, hf, hb⟩

theorem Module.exists_declare {m m' : Module} {name : String} {params : List Ty} {ret : Ty}
    {f' : Function} {k : Nat} (h : ∃ f, m.function? k = some f ∧ f.blocks ≠ [])
    (hd : m.declare name params ret = .ok (f', m')) :
    ∃ f, m'.function? k = some f ∧ f.blocks ≠ [] := by
  unfold Module.declare at hd
  split at hd
  · repeat' split at hd
    all_goals cases hd
    exact h
  · obtain ⟨-, rfl⟩ := Prod.mk.inj (Except.ok.inj hd)
    obtain ⟨f, hf, hb⟩ := h
    refine ⟨f, ?_, hb⟩
    have hlt : k < m.store.size := (Array.getElem?_eq_some_iff.mp hf).1
    simp only [Module.function?, Array.getElem?_push, if_neg (Nat.ne_of_lt hlt)]
    exact hf

theorem Builder.Built.holds {b : Builder} (h : b.Built) :
    (∀ k f, b.module.function? k = some f → f.Holds) ∧
      ∀ r, b.point = some r → ∃ f, b.module.function? r.fn = some f ∧ f.blocks ≠ [] := by
  induction h with
  | empty name => exact ⟨by simp [Module.function?], fun r hr => by cases hr⟩
  | declare _ hd ih =>
    obtain ⟨-, -, hall⟩ := Module.forall_declare ih.1 (fun f => .of_empty) hd
    exact ⟨hall, fun r hr => Module.exists_declare (ih.2 r hr) hd⟩
  | @declareNative b name params ret f m hb hd ih =>
    unfold Module.declareNative at hd
    cases hr : b.module.declare name params ret with
    | error e => rw [hr] at hd; cases hd
    | ok x =>
      rw [hr] at hd
      obtain ⟨-, rfl⟩ := Prod.mk.inj (Except.ok.inj hd)
      obtain ⟨hf, hempty, hall⟩ := Module.forall_declare ih.1 (fun f => .of_empty) hr
      refine ⟨Module.forall_modify hall fun _ _ => ⟨hf.slots, hf.named, hf.params, fun _ => hempty⟩,
        fun r hpoint => Module.exists_modify (Module.exists_declare (ih.2 r hpoint) hr) ?_⟩
      intro g hg hblocks
      cases (hb.tidy.declare hr).2.symm.trans hg
      exact absurd hempty hblocks
  | nameParams id names _ ih =>
    refine ⟨Module.forall_modify ih.1 fun f hf => ?_,
      fun r hr => Module.exists_modify (ih.2 r hr) fun _ _ hb => hb⟩
    have h := ih.1 id f hf
    exact ⟨h.slots, h.named, h.params, h.native⟩
  | addBlock id name _ hn ih =>
    refine ⟨Module.forall_modify ih.1 fun f hf => (ih.1 id f hf).addBlock (hn f hf) name,
      fun r hr => Module.exists_modify (ih.2 r hr) fun _ _ _ => by simp [Function.addBlock]⟩
  | newGlobal _ _ _ ih | truncateGlobals _ _ ih => exact ih
  | remove name _ ih =>
    unfold Module.remove
    split
    · refine ⟨Module.forall_modify ih.1 fun f hf => ?_,
        fun r hr => Module.exists_modify (ih.2 r hr) fun _ _ hb => hb⟩
      have h := ih.1 _ f hf
      exact ⟨h.slots, h.named, h.params, h.native⟩
    · exact ih
  | moveTo point _ hp ih =>
    refine ⟨ih.1, fun r hr => ?_⟩
    obtain ⟨f, c, hf, hc⟩ := hp r hr
    exact ⟨f, hf, List.ne_nil_of_mem (List.mem_of_find?_eq_some hc)⟩
  | createBlock hb h ih =>
    obtain ⟨point, f, hp, hf, -, rfl⟩ := Build.createBlock_eq_ok h
    obtain ⟨f', hf', hblocks⟩ := ih.2 point hp
    obtain rfl := Option.some.inj (hf'.symm.trans hf)
    have hholds := ih.1 _ _ hf
    have hn : f'.native = false := by
      cases hn : f'.native with
      | false => rfl
      | true => exact absurd (hholds.native hn) hblocks
    exact ⟨Module.forall_modify ih.1 fun _ _ => hholds.addBlock hn _,
      fun r hr => Module.exists_modify (ih.2 r hr) fun _ _ _ => by simp [Function.addBlock]⟩
  | allocate hb h ih =>
    obtain ⟨point, f, hp, hf, -, rfl⟩ := Build.allocate_eq_ok h
    obtain ⟨f', hf', hblocks⟩ := ih.2 point hp
    cases hf'.symm.trans hf
    exact ⟨Module.forall_modify ih.1 fun _ _ => (ih.1 _ _ hf).addSlot _ _,
      fun r hr => Module.exists_modify (ih.2 r hr) fun _ _ _ => hblocks⟩
  | emit hb _ hd h ih =>
    obtain ⟨point, f, hp, hf, -, -, rfl⟩ := Build.emit_eq_ok h
    obtain ⟨f', hf', hblocks⟩ := ih.2 point hp
    cases hf'.symm.trans hf
    rw [← hb.tidy.id _ _ hf] at hf
    refine ⟨Module.forall_modify ih.1 fun _ _ => .emit hb.tidy ih.1 hf point hd hblocks,
      fun r hr => Module.exists_modify (ih.2 r hr) fun _ _ _ => ?_⟩
    simpa [Function.emit, Function.modifyBlock, Function.mapBlocks,
      Function.newResult] using hblocks

end RealScript
