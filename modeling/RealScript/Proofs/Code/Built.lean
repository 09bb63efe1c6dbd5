import RealScript.Code.Builder
import RealScript.Code.Verify
import RealScript.Proofs.Code.Paths
import RealScript.Proofs.Stateful

/-! # Code that was built

Building gives every block and every result a number of its own, and every result that is not void a
register of its own. Together with what verification checks, this makes code sound as soon as every
register is defined before it is used.
-/

namespace RealScript

variable {b b' : Builder} {d : Draft} {name : String}

inductive Build.Offered : {α : Type} → Build α → Prop where
  | createBlock (name : String) : Offered (createBlock name)
  | allocate (name : String) (ty : Ty) : Offered (allocate name ty)
  | constCollection (data : List Float) : Offered (constCollection data)
  | makeCollection (elements : List Operand) : Offered (makeCollection elements)
  | load (slot : Slot) : Offered (load slot)
  | store (slot : Slot) (v : Operand) : Offered (store slot v)
  | arithmetic (op : Opcode) (l r : Operand) : Offered (arithmetic op l r)
  | compare (p : Predicate) (l r : Operand) : Offered (compare p l r)
  | logic (op : Opcode) (l r : Operand) : Offered (logic op l r)
  | not (v : Operand) : Offered (not v)
  | toBool (v : Operand) : Offered (toBool v)
  | toReal (v : Operand) : Offered (toReal v)
  | call (f : FuncRef) (args : List Operand) : Offered (call f args)
  | callIndirect (callee : Operand) (args : List Operand) : Offered (callIndirect callee args)
  | br (target : Option BlockRef) : Offered (br target)
  | condBr (c : Operand) (yes no : Option BlockRef) : Offered (condBr c yes no)
  | ret (v : Option Operand) : Offered (ret v)

/-- The slot and the parameters that an operation names were handed out: by a function of the
module, or as a global. -/
structure Operation.Issued (m : Module) (o : Operation) : Prop where
  slot : ∀ s, o.slot = some s → s.home = .module ∨ ∃ k f, m.function? k = some f ∧ s ∈ f.slots
  params : ∀ k index name ty, .param k index name ty ∈ o.args →
    ∃ f, m.function? k = some f ∧ f.ref.params[index]? = some ty

/-- A builder whose module was made by declaring and by building, from nothing. Only code has
blocks, and operations name slots and parameters that were handed out. -/
inductive Builder.Built : Builder → Prop where
  | empty (name : String) : Built { module := { name := name } }
  | declare {b : Builder} {name : String} {params : List Ty} {ret : Ty} {f : Function}
      {m : Module} : Built b → b.module.declare name params ret = .ok (f, m) →
      Built { b with module := m }
  | declareNative {b : Builder} {name : String} {params : List Ty} {ret : Ty} {f : Function}
      {m : Module} : Built b → b.module.declareNative name params ret = .ok (f, m) →
      Built { b with module := m }
  | nameParams {b : Builder} (id : Nat) (names : List String) : Built b →
      Built { b with module := b.module.modify id fun f => { f with paramNames := names } }
  | addBlock {b : Builder} (id : Nat) (name : String) : Built b →
      (∀ f, b.module.function? id = some f → f.native = false) →
      Built { b with module := b.module.modify id fun f => (f.addBlock name).2 }
  | newGlobal {b : Builder} (name : String) (ty : Ty) : Built b →
      Built { b with module := (b.module.newGlobal name ty).2 }
  | truncateGlobals {b : Builder} (n : Nat) : Built b →
      Built { b with module := b.module.truncateGlobals n }
  | remove {b : Builder} (name : String) : Built b → Built { b with module := b.module.remove name }
  | moveTo {b : Builder} (point : Option BlockRef) : Built b →
      (∀ r, point = some r → ∃ f c, b.module.function? r.fn = some f ∧ f.block? r = some c) →
      Built { b with point := point }
  | createBlock {b b' : Builder} {name : String} {r : BlockRef} : Built b →
      Build.createBlock name b = .ok r b' → Built b'
  | allocate {b b' : Builder} {name : String} {ty : Ty} {s : Slot} : Built b →
      Build.allocate name ty b = .ok s b' → Built b'
  | emit {b b' : Builder} {d : Draft} {x : Operand} : Built b → Build.Offered (.emit d) →
      d.toOperation.Issued b.module → Build.emit d b = .ok x b' → Built b'

structure Operation.Plain (o : Operation) : Prop where
  targets : o.op ≠ .br → o.op ≠ .condBr → o.targets = []
  args : o.op = .constColl ∨ o.op = .load ∨ o.op = .br → o.args = []

structure Draft.Fair (d : Draft) : Prop where
  plain : d.toOperation.Plain
  numeric : d.op.isNumeric = true → d.ty ≠ .void
  terminator : d.op.isTerminator = true → d.ty = .void

structure Instr.Fair (registers emitted : Nat) (i : Instr) : Prop where
  plain : i.toOperation.Plain
  numeric : i.op.isNumeric = true → i.ref.register ≠ none
  terminator : i.isTerminator = true → i.ref.register = none
  register : ∀ k, i.ref.register = some k → k < registers
  index : i.ref.index < emitted

/-- A function whose blocks and results have numbers of their own, with links from instructions to
the blocks that hold them. -/
structure Function.Tidy (f : Function) : Prop where
  block : ∀ b ∈ f.blocks, b.ref.index < f.labels.length
  blocks : (f.blocks.map (·.ref.index)).Nodup
  instr : ∀ i ∈ code f.blocks, i.Fair f.registers f.emitted
  results : ((code f.blocks).map (·.ref.index)).Nodup
  registers : ((code f.blocks).filterMap (·.ref.register)).Nodup
  link : ∀ b ∈ f.blocks, ∀ i ∈ b.instrs, i.block = b.ref

namespace Function.Tidy

variable {f : Function}

theorem addBlock (h : f.Tidy) (name : String) : (f.addBlock name).2.Tidy := by
  have hcode : code (f.addBlock name).2.blocks = code f.blocks := by
    simp [Function.addBlock, code]
  refine ⟨fun b hb => ?_, ?_, by rw [hcode]; exact h.instr, by rw [hcode]; exact h.results,
    by rw [hcode]; exact h.registers, fun b hb i hi => ?_⟩
  · simp only [Function.addBlock, List.mem_append, List.mem_singleton] at hb
    rcases hb with hb | rfl
    · exact Nat.lt_succ_of_lt (h.block b hb)
    · exact Nat.lt_succ_self _
  · simp only [Function.addBlock, List.map_append, List.map_cons, List.map_nil]
    refine List.nodup_append.mpr ⟨h.blocks, List.nodup_singleton _, ?_⟩
    intro k hk j hj he
    obtain ⟨b, hb, rfl⟩ := List.mem_map.mp hk
    have := h.block b hb
    simp only [List.mem_singleton] at hj
    omega
  · simp only [Function.addBlock, List.mem_append, List.mem_singleton] at hb
    rcases hb with hb | rfl
    · exact h.link b hb i hi
    · cases hi

theorem addSlot (h : f.Tidy) (name : String) (ty : Ty) : (f.addSlot name ty).2.Tidy :=
  ⟨h.block, h.blocks, h.instr, h.results, h.registers, h.link⟩

end Function.Tidy

theorem code_modify_subperm {bs : List Block} (h : (bs.map (·.ref)).Nodup) (r : BlockRef)
    (i : Instr) :
    (code (bs.map fun b => if b.ref == r then b.push i else b)).Subperm (i :: code bs) := by
  induction bs with
  | nil => exact List.nil_subperm
  | cons b bs ih =>
    rw [List.map_cons, List.nodup_cons] at h
    by_cases hb : b.ref = r
    · subst hb
      have hrest : (bs.map fun c => if c.ref == b.ref then c.push i else c) = bs := by
        refine (List.map_congr_left fun c hc => ?_).trans (List.map_id' _)
        have : c.ref ≠ b.ref := fun he => h.1 (he ▸ List.mem_map_of_mem hc)
        simp [this]
      rw [List.map_cons, hrest]
      simp only [BEq.rfl, if_true, code, List.flatMap_cons, Block.push, List.append_assoc]
      exact List.perm_middle.subperm
    · have hb' : (b.ref == r) = false := by simpa using hb
      simp only [List.map_cons, hb', Bool.false_eq_true, if_false]
      exact ((List.subperm_append_left b.instrs).mpr (ih h.2)).trans List.perm_middle.subperm

theorem Function.Tidy.nodup_ref {f : Function} (h : f.Tidy) : (f.blocks.map (·.ref)).Nodup := by
  refine List.Nodup.of_map BlockRef.index ?_
  rw [List.map_map]
  exact h.blocks

def Function.nextInstr (f : Function) (point : BlockRef) (d : Draft) : Instr :=
  d.instr (f.newResult d.ty).1 point

theorem Function.nextInstr_fair (f : Function) (point : BlockRef) (hd : d.Fair) :
    (f.nextInstr point d).Fair (f.emit point d).2.registers (f.emit point d).2.emitted where
  plain := hd.plain
  numeric h := by
    have := hd.numeric h
    simp [nextInstr, Draft.instr, newResult, this]
  terminator h := by
    have := hd.terminator h
    simp [nextInstr, Draft.instr, newResult, this]
  register k hk := by
    by_cases hv : d.ty = .void
    · simp [nextInstr, Draft.instr, newResult, hv] at hk
    · simp only [nextInstr, Draft.instr, newResult, hv, if_false, Option.some.injEq] at hk
      simp only [emit, newResult, modifyBlock, mapBlocks, hv, if_false]
      omega
  index := Nat.lt_succ_self _

theorem Instr.Fair.mono {r r' e e' : Nat} {i : Instr} (h : i.Fair r e) (hr : r ≤ r') (he : e ≤ e') :
    i.Fair r' e' :=
  { h with
    register := fun k hk => Nat.lt_of_lt_of_le (h.register k hk) hr
    index := Nat.lt_of_lt_of_le h.index he }

theorem Function.Tidy.emit {f : Function} (h : f.Tidy) (point : BlockRef) {d : Draft}
    (hd : d.Fair) : (f.emit point d).2.Tidy := by
  let i := f.nextInstr point d
  have hsub : (code (f.emit point d).2.blocks).Subperm (i :: code f.blocks) :=
    code_modify_subperm h.nodup_ref point i
  have hreg : f.registers ≤ (f.emit point d).2.registers := by
    simp only [Function.emit, newResult, modifyBlock, mapBlocks]
    split <;> omega
  have hfair : ∀ j ∈ i :: code f.blocks,
      j.Fair (f.emit point d).2.registers (f.emit point d).2.emitted := by
    intro j hj
    rcases List.mem_cons.mp hj with rfl | hj
    · exact f.nextInstr_fair point hd
    · exact (h.instr j hj).mono hreg (Nat.le_succ _)
  have hrefs : (f.emit point d).2.blocks.map (·.ref) = f.blocks.map (·.ref) := by
    simp only [Function.emit, modifyBlock, mapBlocks, List.map_map]
    refine List.map_congr_left fun b _ => ?_
    simp only [Function.comp_apply]
    split <;> rfl
  have hindex : ∀ bs : List Block, bs.map (·.ref.index) = (bs.map (·.ref)).map (·.index) := by
    simp
  obtain ⟨l, hperm, hl⟩ := hsub
  refine ⟨fun b hb => ?_, ?_, fun j hj => hfair j (hl.subset (hperm.mem_iff.mpr hj)), ?_, ?_,
    fun b hb j hj => ?_⟩
  · obtain ⟨c, hc, he⟩ : ∃ c ∈ f.blocks, c.ref = b.ref := by
      have : b.ref ∈ f.blocks.map (·.ref) := hrefs ▸ List.mem_map_of_mem hb
      simpa using this
    exact he ▸ h.block c hc
  · rw [hindex, hrefs, ← hindex]
    exact h.blocks
  · refine (hperm.map _).nodup_iff.mp (List.Nodup.sublist (hl.map _) ?_)
    refine List.nodup_cons.mpr ⟨fun hmem => ?_, h.results⟩
    obtain ⟨j, hj, he⟩ := List.mem_map.mp hmem
    have := (h.instr j hj).index
    rw [he] at this
    exact Nat.lt_irrefl _ this
  · refine (hperm.filterMap _).nodup_iff.mp (List.Nodup.sublist (hl.filterMap _) ?_)
    cases hi : i.ref.register with
    | none =>
      rw [List.filterMap_cons_none (f := fun j : Instr => j.ref.register) hi]
      exact h.registers
    | some k =>
      rw [List.filterMap_cons_some (f := fun j : Instr => j.ref.register) hi]
      refine List.nodup_cons.mpr ⟨fun hmem => ?_, h.registers⟩
      obtain ⟨j, hj, he⟩ := List.mem_filterMap.mp hmem
      have hlt := (h.instr j hj).register k he
      have hk : k = f.registers := by
        simp only [i, nextInstr, Draft.instr, newResult] at hi
        split at hi
        · cases hi
        · exact (Option.some.inj hi).symm
      omega
  · obtain ⟨c, hc, rfl⟩ := List.mem_map.mp hb
    dsimp only at hj ⊢
    split at hj
    · rename_i hr
      rw [if_pos hr]
      rcases List.mem_append.mp hj with hj | hj
      · exact h.link c hc j hj
      · obtain rfl := List.mem_singleton.mp hj
        exact (beq_iff_eq.mp hr).symm
    · rename_i hr
      rw [if_neg hr]
      exact h.link c hc j hj

structure Module.Tidy (m : Module) : Prop where
  id : ∀ k f, m.function? k = some f → f.id = k
  function : ∀ k f, m.function? k = some f → f.Tidy

namespace Module

variable {m : Module} {P : Function → Prop}

theorem forall_modify {j : Nat} {g : Function → Function} (hm : ∀ k f, m.function? k = some f → P f)
    (hg : ∀ f, m.function? j = some f → P (g f)) :
    ∀ k f, (m.modify j g).function? k = some f → P f := by
  intro k f hf
  simp only [Module.function?, Module.modify, Array.getElem?_modify] at hf
  split at hf
  · rename_i hj
    subst hj
    obtain ⟨f', hf', rfl⟩ := Option.map_eq_some_iff.mp hf
    exact hg f' hf'
  · exact hm k f hf

theorem forall_declare {m' : Module} {name : String} {params : List Ty} {ret : Ty} {f' : Function}
    (hm : ∀ k f, m.function? k = some f → P f)
    (hnew : ∀ f : Function, f.blocks = [] → f.slots = [] → P f)
    (hd : m.declare name params ret = .ok (f', m')) :
    P f' ∧ f'.blocks = [] ∧ ∀ k f, m'.function? k = some f → P f := by
  unfold Module.declare at hd
  split at hd
  · rename_i g hg
    split at hd
    · cases hd
    · split at hd
      · cases hd
      · rename_i hbody
        cases hd
        obtain ⟨k, hk⟩ := List.getElem?_of_mem (List.mem_filter.mp (List.mem_of_find?_eq_some hg)).1
        refine ⟨hm k f' (by simpa [Module.function?] using hk), ?_, hm⟩
        simp only [Bool.or_eq_true, not_or, Bool.not_eq_true] at hbody
        simpa [Function.hasBody] using hbody.1
  · cases hd
    refine ⟨hnew _ rfl rfl, rfl, fun k f hf => ?_⟩
    simp only [Module.function?, Array.getElem?_push] at hf
    split at hf
    · cases hf
      exact hnew _ rfl rfl
    · exact hm k f hf

end Module

namespace Module.Tidy

variable {m : Module}

theorem modify (h : m.Tidy) (k : Nat) {g : Function → Function}
    (hid : ∀ f, m.function? k = some f → (g f).id = f.id)
    (hg : ∀ f, m.function? k = some f → (g f).Tidy) : (m.modify k g).Tidy := by
  have hcases : ∀ j f, (m.modify k g).function? j = some f →
      (j ≠ k ∧ m.function? j = some f) ∨ (j = k ∧ ∃ f₀, m.function? k = some f₀ ∧ g f₀ = f) := by
    intro j f hf
    simp only [Module.function?, Module.modify, Array.getElem?_modify] at hf
    by_cases hj : k = j
    · subst hj
      simp only [if_true, Option.map_eq_some_iff] at hf
      exact .inr ⟨rfl, hf⟩
    · rw [if_neg hj] at hf
      exact .inl ⟨fun he => hj he.symm, hf⟩
  constructor
  · intro j f hf
    rcases hcases j f hf with ⟨-, hf⟩ | ⟨rfl, f₀, hf₀, rfl⟩
    · exact h.id j f hf
    · rw [hid f₀ hf₀, h.id j f₀ hf₀]
  · intro j f hf
    rcases hcases j f hf with ⟨-, hf⟩ | ⟨rfl, f₀, hf₀, rfl⟩
    · exact h.function j f hf
    · exact hg f₀ hf₀

theorem push (h : m.Tidy) {f : Function} (hid : f.id = m.store.size) (hf : f.Tidy) :
    Module.Tidy { m with store := m.store.push f } := by
  have hcases : ∀ j g, Module.function? { m with store := m.store.push f } j = some g →
      m.function? j = some g ∨ j = m.store.size ∧ g = f := by
    intro j g hg
    simp only [Module.function?, Array.getElem?_push] at hg
    split at hg
    · rename_i hj
      exact .inr ⟨hj, (Option.some.inj hg).symm⟩
    · exact .inl hg
  constructor
  · intro j g hg
    rcases hcases j g hg with hg | ⟨rfl, rfl⟩
    · exact h.id j g hg
    · exact hid
  · intro j g hg
    rcases hcases j g hg with hg | ⟨rfl, rfl⟩
    · exact h.function j g hg
    · exact hf

theorem function?_of_find? (h : m.Tidy) {f : Function}
    (hf : m.find? name = some f) : m.function? f.id = some f := by
  have hmem := List.mem_of_find?_eq_some hf
  obtain ⟨k, hk⟩ := List.getElem?_of_mem (List.mem_filter.mp hmem).1
  have hk : m.function? k = some f := by simpa [Module.function?] using hk
  rwa [h.id k f hk]

theorem declare (h : m.Tidy) {name : String} {params : List Ty} {ret : Ty} {f : Function}
    {m' : Module} (hd : m.declare name params ret = .ok (f, m')) :
    m'.Tidy ∧ m'.function? f.id = some f := by
  unfold Module.declare at hd
  split at hd
  · rename_i g hg
    split at hd
    · cases hd
    · split at hd
      · cases hd
      · cases hd
        exact ⟨h, h.function?_of_find? hg⟩
  · cases hd
    refine ⟨h.push rfl ⟨by simp, by simp, by simp [code], by simp [code], by simp [code], by simp⟩,
      ?_⟩
    simp [Module.function?, Function.id]

theorem declareNative (h : m.Tidy) {name : String} {params : List Ty} {ret : Ty} {f : Function}
    {m' : Module} (hd : m.declareNative name params ret = .ok (f, m')) : m'.Tidy := by
  unfold Module.declareNative at hd
  cases hr : m.declare name params ret with
  | error e => rw [hr] at hd; cases hd
  | ok r =>
    rw [hr] at hd
    obtain ⟨-, rfl⟩ := Prod.mk.inj (Except.ok.inj hd)
    obtain ⟨ht, hf⟩ := h.declare hr
    refine ht.modify _ (fun g hg => ?_) fun g hg => ?_
    · cases hf.symm.trans hg
      rfl
    · have := ht.function _ _ hf
      exact ⟨this.block, this.blocks, this.instr, this.results, this.registers, this.link⟩

theorem remove (h : m.Tidy) (name : String) : (m.remove name).Tidy := by
  unfold Module.remove
  split
  · refine h.modify _ (fun _ _ => rfl) fun g hg => ?_
    have := h.function _ _ hg
    exact ⟨this.block, this.blocks, this.instr, this.results, this.registers, this.link⟩
  · exact h

end Module.Tidy

namespace Build

open Stateful

theorem emit_eq_ok {x : Operand} (h : emit d b = .ok x b') :
    ∃ point f, b.point = some point ∧ b.module.function? point.fn = some f ∧
      b.terminated = false ∧ x = .result (f.emit point d).1 ∧
      b' = { b with module := b.module.modify f.id fun _ => (f.emit point d).2 } := by
  rw [emit] at h
  simp only [bind_run, get_run] at h
  cases hp : b.point with
  | none => simp only [hp, throw_run] at h; cases h
  | some point =>
    cases ht : b.terminated with
    | true =>
      simp only [hp, ht, if_true, bind_run, throw_run] at h
      cases h
    | false =>
      simp only [hp, ht, Bool.false_eq_true, if_false] at h
      cases hf : b.function? with
      | none => simp only [hf, throw_run] at h; cases h
      | some f =>
        simp only [hf, bind_run, set_run, pure_run, EStateM.Result.ok.injEq] at h
        obtain ⟨rfl, rfl⟩ := h
        refine ⟨point, f, rfl, ?_, rfl, rfl, rfl⟩
        simpa [Builder.function?, hp] using hf

theorem createBlock_eq_ok {r : BlockRef} (h : createBlock name b = .ok r b') :
    ∃ point f, b.point = some point ∧ b.module.function? point.fn = some f ∧
      r = (f.addBlock name).1 ∧
      b' = { b with module := b.module.modify f.id fun _ => (f.addBlock name).2 } := by
  rw [createBlock] at h
  simp only [bind_run, get_run] at h
  cases hf : b.function? with
  | none => simp only [hf, throw_run] at h; cases h
  | some f =>
    simp only [hf, bind_run, set_run, pure_run, EStateM.Result.ok.injEq] at h
    obtain ⟨point, hp, hf⟩ := Option.bind_eq_some_iff.mp hf
    exact ⟨point, f, hp, hf, h.1.symm, h.2.symm⟩

theorem allocate_eq_ok {ty : Ty} {s : Slot} (h : allocate name ty b = .ok s b') :
    ∃ point f, b.point = some point ∧ b.module.function? point.fn = some f ∧
      s = (f.addSlot name ty).1 ∧
      b' = { b with module := b.module.modify f.id fun _ => (f.addSlot name ty).2 } := by
  rw [allocate] at h
  simp only [bind_run, get_run] at h
  cases hf : b.function? with
  | none => simp only [hf, throw_run] at h; cases h
  | some f =>
    simp only [hf, bind_run, set_run, pure_run, EStateM.Result.ok.injEq] at h
    obtain ⟨point, hp, hf⟩ := Option.bind_eq_some_iff.mp hf
    exact ⟨point, f, hp, hf, h.1.symm, h.2.symm⟩

end Build

inductive Builder.Change (b : Builder) : Builder → Prop where
  | block {point : BlockRef} {f : Function} (name : String) : b.point = some point →
      b.module.function? point.fn = some f →
      Change b { b with module := b.module.modify f.id fun _ => (f.addBlock name).2 }
  | slot {point : BlockRef} {f : Function} (name : String) (ty : Ty) : b.point = some point →
      b.module.function? point.fn = some f →
      Change b { b with module := b.module.modify f.id fun _ => (f.addSlot name ty).2 }
  | emit {point : BlockRef} {f : Function} {d : Draft} : b.point = some point →
      b.module.function? point.fn = some f → b.terminated = false → d.Fair →
      Change b { b with module := b.module.modify f.id fun _ => (f.emit point d).2 }

namespace Build

open Stateful

theorem change_emit (hd : d.Fair) {x : Operand} (h : emit d b = .ok x b') : b.Change b' := by
  obtain ⟨point, f, hp, hf, ht, -, rfl⟩ := emit_eq_ok h
  exact .emit hp hf ht hd

theorem Offered.change {α : Type} {op : Build α} (ho : op.Offered) {x : α}
    (h : op b = .ok x b') : b.Change b' := by
  cases ho with
  | createBlock name =>
    obtain ⟨point, f, hp, hf, -, rfl⟩ := createBlock_eq_ok h
    exact .block name hp hf
  | allocate name ty =>
    obtain ⟨point, f, hp, hf, -, rfl⟩ := allocate_eq_ok h
    exact .slot name ty hp hf
  | arithmetic op l r =>
    rw [Build.arithmetic] at h
    by_cases hop : op.isArithmetic = true
    · rw [if_pos hop] at h
      refine change_emit ⟨⟨fun _ _ => rfl, ?_⟩, fun _ => Ty.noConfusion, ?_⟩ h <;>
        cases op <;> simp_all [Draft.arithmetic, Opcode.isArithmetic, Opcode.isTerminator]
    · rw [if_neg hop] at h
      cases h
  | logic op l r =>
    rw [Build.logic] at h
    by_cases hop : op.isLogical = true
    · rw [if_pos hop] at h
      refine change_emit ⟨⟨fun _ _ => rfl, ?_⟩, fun _ => Ty.noConfusion, ?_⟩ h <;>
        cases op <;> simp_all [Draft.logic, Opcode.isLogical, Opcode.isTerminator]
    · rw [if_neg hop] at h
      cases h
  | _ =>
    refine change_emit ⟨⟨?_, ?_⟩, ?_, ?_⟩ h <;>
      simp [Draft.constCollection, Draft.makeCollection, Draft.load, Draft.store, Draft.compare,
        Draft.not, Draft.toBool, Draft.toReal, Draft.call, Draft.callIndirect, Draft.br,
        Draft.condBr, Draft.ret, Opcode.isNumeric, Opcode.isTerminator]

theorem eq_of_emit_eq_error {e : Misuse} (h : emit d b = .error e b') : b' = b := by
  rw [emit] at h
  simp only [bind_run, get_run] at h
  cases hp : b.point with
  | none => simp only [hp, throw_run] at h; cases h; rfl
  | some point =>
    cases ht : b.terminated with
    | true => simp only [hp, ht, if_true, bind_run, throw_run] at h; cases h; rfl
    | false =>
      simp only [hp, ht, Bool.false_eq_true, if_false] at h
      cases hf : b.function? with
      | none => simp only [hf, throw_run] at h; cases h; rfl
      | some f => simp only [hf, bind_run, set_run, pure_run] at h; cases h

theorem Offered.eq_of_error {α : Type} {op : Build α} (ho : op.Offered)
    {e : Misuse} (h : op b = .error e b') : b' = b := by
  cases ho with
  | createBlock name =>
    rw [Build.createBlock] at h
    simp only [bind_run, get_run] at h
    cases hf : b.function? with
    | none => simp only [hf, throw_run] at h; cases h; rfl
    | some f => simp only [hf, bind_run, set_run, pure_run] at h; cases h
  | allocate name ty =>
    rw [Build.allocate] at h
    simp only [bind_run, get_run] at h
    cases hf : b.function? with
    | none => simp only [hf, throw_run] at h; cases h; rfl
    | some f => simp only [hf, bind_run, set_run, pure_run] at h; cases h
  | arithmetic op l r =>
    rw [Build.arithmetic] at h
    split at h
    · exact eq_of_emit_eq_error h
    · cases h; rfl
  | logic op l r =>
    rw [Build.logic] at h
    split at h
    · exact eq_of_emit_eq_error h
    · cases h; rfl
  | _ => exact eq_of_emit_eq_error h

end Build

theorem Builder.Change.point (h : b.Change b') : b'.point = b.point := by
  cases h <;> rfl

theorem Builder.Change.tidy (h : b.Change b') (hb : b.module.Tidy) :
    b'.module.Tidy := by
  have hmodify : ∀ {point f g}, b.module.function? point = some f → g.id = f.id → g.Tidy →
      (b.module.modify f.id fun _ => g).Tidy := by
    intro point f g hf hid hg
    rw [← hb.id _ _ hf] at hf
    refine hb.modify _ (fun f' hf' => ?_) fun _ _ => hg
    cases hf.symm.trans hf'
    exact hid
  cases h with
  | block name _ hf => exact hmodify hf rfl ((hb.function _ _ hf).addBlock name)
  | slot name ty _ hf => exact hmodify hf rfl ((hb.function _ _ hf).addSlot name ty)
  | emit _ hf _ hd => exact hmodify hf rfl ((hb.function _ _ hf).emit _ hd)

theorem Builder.Built.tidy {b : Builder} (h : b.Built) : b.module.Tidy := by
  induction h with
  | empty name => exact ⟨by simp [Module.function?], by simp [Module.function?]⟩
  | declare _ hd ih => exact (ih.declare hd).1
  | declareNative _ hd ih => exact ih.declareNative hd
  | nameParams id names _ ih =>
    refine ih.modify id (fun _ _ => rfl) fun f hf => ?_
    have := ih.function id f hf
    exact ⟨this.block, this.blocks, this.instr, this.results, this.registers, this.link⟩
  | addBlock id name _ _ ih =>
    exact ih.modify id (fun _ _ => rfl) fun f hf => (ih.function id f hf).addBlock name
  | newGlobal _ _ _ ih | truncateGlobals _ _ ih | moveTo _ _ _ ih => exact ⟨ih.id, ih.function⟩
  | remove name _ ih => exact ih.remove name
  | createBlock _ h ih => exact ((Build.Offered.createBlock _).change h).tidy ih
  | allocate _ h ih => exact ((Build.Offered.allocate _ _).change h).tidy ih
  | emit _ ho _ h ih => exact (ho.change h).tidy ih

end RealScript
