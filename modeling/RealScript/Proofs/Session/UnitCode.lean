import RealScript.Proofs.Optimize.Verified
import RealScript.Proofs.Session.WellFormed

/-! # The code of a unit

Each function of a unit that was lowered has registers of its own for its results, and on every path
it computes what it uses and stores to a local slot before it loads from it. So optimising keeps the
unit valid, and its entry is never refused.
-/

namespace RealScript

structure Function.DefinesFirst (f : Function) : Prop where
  distinct : ((code f.blocks).filterMap (·.ref.register)).Nodup
  below : ∀ i ∈ code f.blocks, ∀ k, i.ref.register = some k → k < f.registers
  operands : DefinesOperands f.blocks
  loads : ∀ ds b, Path f.blocks ds b → ∀ pre i post, b.instrs = pre ++ i :: post → i.op = .load →
    ∀ s, i.slot = some s → s.home = .activation f.id →
      ∃ j ∈ code f.blocks, j.op = .store ∧ j.slot = some s ∧ j.ref ∈ ds ++ pre.map (·.ref)

theorem Instr.slot_of_stored {i : Instr} {home : Home} {k : Nat} (h : .stored home k ∈ i.facts) :
    ∃ s, i.slot = some s ∧ s.home = home ∧ s.index = k := by
  have ho := op_of_stored h
  have hinner : i.isTerminator = false := by simp [isTerminator, ho, Opcode.isTerminator]
  cases hs : i.slot with
  | none => simp [facts, hinner, ho, hs] at h
  | some s =>
    obtain ⟨rfl, rfl⟩ : home = s.home ∧ k = s.index := by
      simpa [facts, hinner, ho, hs, Slot.fact] using h
    exact ⟨s, rfl, rfl, rfl⟩

namespace Function

variable {m : Module} {reach : Nat → Nat} {f : Function}

theorem Lawful.definesFirst (h : f.Lawful m reach) : f.DefinesFirst where
  distinct := h.sound.registers
  below i hi := (h.sound.fits i hi).register
  operands := h.founded.definesOperands
  loads ds b hp pre i post hi ho s hs hh := by
    have hneeds : i.toOperation.Needs reach f.id s.fact := by
      refine .slot ho hs fun hm => ?_
      rw [hh] at hm
      cases hm
    obtain ⟨j, hj, hφ, hr⟩ := h.founded ds b hp pre i post hi _ hneeds
    obtain ⟨s', hs', hh', hk'⟩ := Instr.slot_of_stored hφ
    -- Slots of a function are told apart by their numbers.
    have hlocal : ∀ i ∈ code f.blocks, ∀ s, i.slot = some s → s.home = .activation f.id →
        f.slots[s.index]? = some s := by
      intro i hi s hs hh
      rcases (h.legal i hi).slot s hs with ⟨hm, -⟩ | ⟨-, hk⟩
      · rw [hh] at hm
        cases hm
      · exact hk
    have hget := hlocal i (mem_code.mpr ⟨b, hp.mem, by simp [hi]⟩) s hs hh
    have hget' := hlocal j hj s' hs' (hh'.trans hh)
    rw [hk', hget] at hget'
    exact ⟨j, hj, Instr.op_of_stored hφ, hs'.trans hget'.symm, hr⟩

theorem definesFirst_of_blocks (h : f.blocks = []) : f.DefinesFirst := by
  have hnone : ∀ ds b, ¬ Path f.blocks ds b := by
    intro ds b hp
    have := hp.mem
    rw [h] at this
    cases this
  refine ⟨by simp [h, code], by simp [h, code], fun ds b hp => ?_, fun ds b hp => ?_⟩
  · exact absurd hp (hnone ds b)
  · exact absurd hp (hnone ds b)

end Function

namespace Lowering

variable {s t t' : Lowering} {u : CodeUnit} {src : String} {p : Program}

theorem Reachable.lower_lawful (hs : s.Reachable) (hp : Program.parse src = .ok p)
    (hl : s.lower p = (.ok u, t)) {k : Nat} {f : Function} (hk : s.module.store.size ≤ k)
    (hf : t.module.function? k = some f) : f.native = true ∧ f.blocks = [] ∨
      f.native = false ∧ f.verify = .ok () ∧ f.Proper ∧ ∃ reach, f.Lawful t.module reach := by
  have hshaped := Program.shaped_of_parse hp
  obtain ⟨base, reach, -, hlawful⟩ := hs.lawful
  obtain ⟨-, reach', -, hadds⟩ := hlawful.lower hshaped hl
  have haccepted := ((hs.sober.lower hs.settled hshaped).2 u t hl).2.2 k f
    (Array.getElem?_eq_none hk) hf
  cases haccepted with
  | native hn _ hblocks => exact .inl ⟨hn, hblocks⟩
  | code hsane hbody hend =>
    have hlaw := hadds.lawful k f hk hf hsane.code
    have hv := hsane.verify hbody hend
    refine .inr ⟨hsane.code, hv, hlaw.proper (fun b hb => ⟨hsane.home b hb, fun i hi => ?_⟩)
      fun i hi => ?_,
      reach', hlaw⟩
    · exact (hsane.instr b hb i hi).1
    · obtain ⟨b, hb, hib⟩ := mem_code.mp hi
      exact (hsane.instr b hb i hib).2.2

/-- Lowered code defines before it uses: in every function of a unit, the results have registers of
their own, and on every path to an instruction its operands were computed and the local slot that it
loads from was stored to. -/
theorem Reachable.lower_definesFirst (hs : s.Reachable) (hp : Program.parse src = .ok p)
    (hl : s.lower p = (.ok u, t)) {r : FuncRef} (hr : r ∈ u.functions) :
    ∃ f, t.module.function? r.id = some f ∧ f.ref = r ∧ f.DefinesFirst := by
  have hlower := hs.settled.lower (namedAll_of_parse hp)
  rw [hl] at hlower
  obtain ⟨k, f, hk, hf, rfl⟩ := hlower.2.touched.mem_created hr
  have hf : t.module.function? k = some f := hf
  have hid : f.ref.id = k := hlower.1.numbered k f hf
  refine ⟨f, hid ▸ hf, rfl, ?_⟩
  rcases hs.lower_lawful hp hl hk hf with ⟨-, hblocks⟩ | ⟨-, -, -, reach, hlaw⟩
  · exact Function.definesFirst_of_blocks hblocks
  · exact hlaw.definesFirst

theorem exists_lower_eq (h : (s.lower p).1.toOption = some u) : ∃ t, s.lower p = (.ok u, t) := by
  cases hx : s.lower p with
  | mk r t =>
    rw [hx] at h
    cases r with
    | error e => cases h
    | ok u' => exact ⟨t, by rw [Option.some.inj h]⟩

theorem lower_definesFirst_loop :
    let s := Lowering.ofModule { name := "do" } []
    ∃ p u t, (s.Reachable ∧ Program.parse "func h(x) \x7b while x x = not x done; x \x7d" = .ok p ∧
        s.lower p = (.ok u, t) ∧ u.functions.length = 2) ∧
      ∀ r ∈ u.functions, ∃ f, t.module.function? r.id = some f ∧ f.ref = r ∧ f.DefinesFirst := by
  intro s
  let p : Program := [.funcDef ⟨1, 1⟩ "h" ["x"] [.whileLoop ⟨1, 13⟩ (.ident ⟨1, 19⟩ "x")
      [.binary ⟨1, 23⟩ "=" (.ident ⟨1, 21⟩ "x") (.unary ⟨1, 25⟩ "not" (.ident ⟨1, 29⟩ "x"))],
    .ident ⟨1, 37⟩ "x"]]
  have hs : s.Reachable := .start [] (.empty "do")
  have hp : Program.parse "func h(x) \x7b while x x = not x done; x \x7d" = .ok p := by cbv
  have hok : (s.lower p).1.toOption.map (·.functions.length) = some 2 := by decide +kernel
  obtain ⟨u, hu, hlen⟩ := Option.map_eq_some_iff.mp hok
  obtain ⟨t, hl⟩ := exists_lower_eq hu
  exact ⟨p, u, t, ⟨hs, hp, hl, hlen⟩, fun r hr => hs.lower_definesFirst hp hl hr⟩

theorem Optimized.keeps {fs : List FuncRef} {P : Function → Prop} (hP : ∀ f, P f → P f.optimize.2)
    (ho : Optimized fs t t') {k : Nat} {f : Function}
    (hf : t.module.function? k = some f) (h : P f) :
    ∃ f', t'.module.function? k = some f' ∧ P f' := by
  induction ho with
  | refl => exact ⟨f, hf, h⟩
  | tail _ hstep ih =>
    obtain ⟨r, -, rfl⟩ := hstep
    obtain ⟨g, hg, hPg⟩ := ih
    rw [module_optimize, Module.function?_optimize, hg]
    refine ⟨_, rfl, ?_⟩
    dsimp only
    split
    · exact hP g hPg
    · exact hPg

theorem Reachable.checkEntry (hs : s.Reachable) (hp : Program.parse src = .ok p)
    (hl : s.lower p = (.ok u, t)) (ho : Optimized u.functions t t') :
    ∃ f, t'.module.function? u.entry.id = some f ∧ f.ref = u.entry ∧ Machine.checkEntry f = .ok
    () := by
  obtain ⟨base, reach, -, hlawful⟩ := hs.lawful
  obtain ⟨hentry, reach', -, hadds⟩ := hlawful.lower (Program.shaped_of_parse hp) hl
  obtain ⟨f, hf, href, hn, -⟩ := hadds.unit
  have hnew := (hs.lower_lawful hp hl (Nat.le_refl _) hf).resolve_left (by simp [hn])
  have hid : u.entry.id = s.module.store.size := by rw [hentry]
  obtain ⟨f', hf', href', hn', hv', -⟩ := ho.keeps (k := u.entry.id) (f := f)
    (P := fun f => f.ref = u.entry ∧ f.native = false ∧ f.verify = .ok () ∧ f.Proper)
    (fun g ⟨hr, hn, _, hp⟩ => ⟨by simpa using hr, by simpa using hn,
      hp.verify_optimize hn, hp.optimize⟩)
    (hid ▸ hf) ⟨href.trans hentry.symm, hn, hnew.2.1, hnew.2.2.1⟩
  refine ⟨f', hf', href', ?_⟩
  simp only [Machine.checkEntry, href', hentry, hv']
  rfl

end Lowering

/-- Optimising keeps functions valid: what was built and verified and defines its operands before it
uses them is accepted again, with the same first block, header, slots and registers, and defines its
operands as before. So the entry of a unit is never refused, whichever of the unit's functions were
optimised. -/
theorem optimize_keeps_valid :
    (∀ (b : Builder) (f : Function), b.Built → f ∈ b.module.store → f.verify = .ok () →
      DefinesOperands f.blocks →
      f.optimize.2.verify = .ok () ∧ DefinesOperands f.optimize.2.blocks ∧ f.Retains f.optimize.2 ∧
        ∀ c ∈ f.optimize.2.blocks, ∀ i ∈ c.instrs, i.block = c.ref) ∧
    ∀ (s t t' : Lowering) (src : String) (p : Program) (u : CodeUnit), s.Reachable →
      Program.parse src = .ok p → s.lower p = (.ok u, t) → Lowering.Optimized u.functions t t' →
      ∃ f, t'.module.function? u.entry.id = some f ∧ f.ref = u.entry ∧ Machine.checkEntry f = .ok
      () :=
  ⟨fun _ _ hb hf hv hd => hb.optimize_valid hf hv hd,
    fun _ _ _ _ _ _ hs hp hl ho => hs.checkEntry hp hl ho⟩

/-- A function whose entry passes on the result of a call that gives nothing. The call is made in a
block that nothing leads to. -/
def strayFunction : Function :=
  let start : BlockRef := ⟨2, 0, "entry"⟩
  let dead : BlockRef := ⟨2, 1, "dead"⟩
  { ref := ⟨2, "f", [], .real⟩
    paramNames := []
    emitted := 4
    labels := ["dead", "entry"]
    blocks := [⟨start, [(Draft.call ⟨1, "w", [.void], .void⟩ [.result ⟨2, 0, none, .void⟩]).instr
          ⟨2, 2, none, .void⟩ start,
        (Draft.ret (some (.real 0))).instr ⟨2, 3, none, .void⟩ start]⟩,
      ⟨dead, [(Draft.call ⟨0, "v", [], .void⟩ []).instr ⟨2, 0, none, .void⟩ dead,
        (Draft.ret (some (.real 0))).instr ⟨2, 1, none, .void⟩ dead]⟩] }

def strayBuilder : Builder :=
  ⟨{ name := "m"
     store := #[{ ref := ⟨0, "v", [], .void⟩, paramNames := [], native := true },
       { ref := ⟨1, "w", [.void], .void⟩, paramNames := ["a0"], native := true },
       strayFunction] }, some ⟨2, 0, "entry"⟩⟩

theorem built_strayBuilder : strayBuilder.Built := by
  have h₀ : Builder.Built { module := { name := "m" } } := .empty _
  have hv : Module.declareNative { name := "m" } "v" [] .void = .ok _ := rfl
  have h₁ := @Builder.Built.declareNative _ "w" [.void] .void _ _ (h₀.declareNative hv) rfl
  have h₂ := @Builder.Built.declare _ "f" [] .real _ _ h₁ rfl
  have h₃ := (h₂.addBlock 2 "entry" fun _ h => by cases h; rfl).addBlock 2 "dead"
    fun _ h => by cases h; rfl
  have h₄ := h₃.moveTo (some ⟨2, 1, "dead"⟩) fun _ h => by cases h; exact ⟨_, _, rfl, rfl⟩
  have h₅ := h₄.emit (.call ⟨0, "v", [], .void⟩ []) ⟨by simp [Draft.call], by simp [Draft.call]⟩ rfl
  have h₆ := h₅.emit (.ret (some (.real 0))) ⟨by simp [Draft.ret], by simp [Draft.ret]⟩ rfl
  have h₇ := h₆.moveTo (some ⟨2, 0, "entry"⟩) fun _ h => by cases h; exact ⟨_, _, rfl, rfl⟩
  have h₈ := h₇.emit (.call ⟨1, "w", [.void], .void⟩ [.result ⟨2, 0, none, .void⟩])
    ⟨by simp [Draft.call], by simp [Draft.call]⟩ rfl
  exact h₈.emit (.ret (some (.real 0))) ⟨by simp [Draft.ret], by simp [Draft.ret]⟩ rfl

/-- Registers that are defined before they are used are not enough: the result of a call that gives
nothing has no register. Without the block of that call, its use is refused. -/
theorem optimize_loses_stray : strayBuilder.Built ∧ strayFunction ∈ strayBuilder.module.store ∧
    strayFunction.verify = .ok () ∧ DefinesBeforeUse strayFunction.blocks ∧
    strayFunction.optimize.2.verify =
      .error ⟨"f", "entry", .undefinedResult .call ⟨2, 0, none, .void⟩⟩ := by
  refine ⟨built_strayBuilder, by simp [strayBuilder], rfl, ?_, by decide +kernel⟩
  have huses : ∀ i ∈ code strayFunction.blocks, ∀ r ∈ i.uses, r.register = none := by
    simp [code, strayFunction, Instr.uses, Draft.instr, Draft.call, Draft.ret, Operand.result?]
  intro ds b hp pre i post he r hr hreg
  exact absurd (huses i (mem_code.mpr ⟨b, hp.mem, by simp [he]⟩) r hr) hreg

theorem definesOperands_sumFunction : DefinesOperands sumFunction.blocks := by
  intro ds b hp pre i post he r hr
  have hmem := definesBeforeUse_sumFunction ds b hp pre i post he r
    (List.mem_filterMap.mpr ⟨_, hr, rfl⟩)
  obtain rfl : r = ⟨0, 0, some 0, .real⟩ := by
    have hi : i ∈ code sumFunction.blocks := mem_code.mpr ⟨b, hp.mem, by simp [he]⟩
    simp only [code, sumFunction, List.flatMap_cons, List.flatMap_nil, List.append_nil,
      List.cons_append, List.nil_append, List.mem_cons, List.not_mem_nil, or_false] at hi
    rcases hi with rfl | rfl | rfl
    · simp [Draft.instr, Draft.arithmetic] at hr
    · simp [Draft.instr, Draft.br] at hr
    · simpa [Draft.instr, Draft.ret] using hr
  refine ⟨(Draft.arithmetic .add (.real 1) (.real 2)).instr ⟨0, 0, some 0, .real⟩ ⟨0, 0, "start"⟩,
    ?_, Instr.result_mem_facts.mpr ⟨rfl, rfl⟩, hmem (by simp)⟩
  exact List.mem_cons_self

theorem optimize_keeps_valid_sum :
    (sumFunction.optimize.2.verify = .ok () ∧ DefinesOperands sumFunction.optimize.2.blocks ∧
      sumFunction.Retains sumFunction.optimize.2 ∧
      ∀ c ∈ sumFunction.optimize.2.blocks, ∀ i ∈ c.instrs, i.block = c.ref) ∧
    ∃ p u t, Program.parse "func f(a) \x7b a \x7d" = .ok p ∧
      (Lowering.ofModule { name := "do" } []).lower p = (.ok u, t) ∧
      ∃ f, (t.optimize u.entry.id).module.function? u.entry.id = some f ∧ f.ref = u.entry ∧
        Machine.checkEntry f = .ok () := by
  let p : Program := [.funcDef ⟨1, 1⟩ "f" ["a"] [.ident ⟨1, 13⟩ "a"]]
  have hs : (Lowering.ofModule { name := "do" } []).Reachable := .start [] (.empty "do")
  have hp : Program.parse "func f(a) \x7b a \x7d" = .ok p := by cbv
  have hok : ((Lowering.ofModule { name := "do" } []).lower p).1.toOption.map
      (fun u => u.functions.contains u.entry) = some true := by decide +kernel
  obtain ⟨u, hu, hmem⟩ := Option.map_eq_some_iff.mp hok
  obtain ⟨t, hl⟩ := Lowering.exists_lower_eq hu
  have ho : Lowering.Optimized u.functions t (t.optimize u.entry.id) :=
    .single ⟨u.entry, by simpa using hmem, rfl⟩
  exact ⟨optimize_keeps_valid.1 sumBuilder sumFunction built_sumBuilder (by simp [sumBuilder]) rfl
    definesOperands_sumFunction, p, u, t, hp, hl, optimize_keeps_valid.2 _ _ _ _ _ _ hs hp hl ho⟩

end RealScript
