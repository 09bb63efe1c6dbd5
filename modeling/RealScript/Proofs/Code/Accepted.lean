import RealScript.Proofs.Code.Growth
import RealScript.Proofs.Code.Typed

/-! # Code that verification accepts

Verification accepts an operation if its operands have the right types and all that it names belongs
to the function. Both stay true while the function grows, so they can be shown of each instruction
as it is emitted. What is left to the end is that every block has its end.
-/

namespace RealScript

def Operand.Owned (f : Function) : Operand → Prop
  | .result r => ∃ i ∈ code f.blocks, i.ref = r
  | .param fn _ _ _ => fn = f.id
  | .hole => False
  | .real _ | .truth _ | .func _ => True

def Slot.Owned (fn : Nat) (s : Slot) : Prop := s.isGlobal = true ∨ s.home = .activation fn

/-- The operands, the slot and the targets of an operation belong to the function. -/
structure Operation.Owned (f : Function) (o : Operation) : Prop where
  args : ∀ x ∈ o.args, x.Owned f
  slot : ∀ s, o.slot = some s → s.Owned f.id
  targets : ∀ t ∈ o.targets, ∃ r ∈ f.blocks.map (·.ref), t = some r
  br : o.op = .br → o.targets.length = 1
  condBr : o.op = .condBr → o.targets.length = 2

theorem BlocksGrow.refs {bs cs : List Block} (h : BlocksGrow bs cs) :
    bs.map (·.ref) ⊆ cs.map (·.ref) := by
  induction h with
  | more => exact List.nil_subset _
  | cons hb _ ih =>
    rw [List.map_cons, List.map_cons, hb.ref]
    exact List.cons_subset_cons _ ih

theorem BlocksGrow.code {bs cs : List Block} (h : BlocksGrow bs cs) : code bs ⊆ code cs := by
  induction h with
  | more => exact List.nil_subset _
  | cons hb _ ih =>
    intro i hi
    rcases List.mem_append.mp (show i ∈ _ ++ _ from hi) with hi | hi
    · exact List.mem_append_left _ (hb.instrs.subset hi)
    · exact List.mem_append_right _ (ih hi)

theorem Operand.Owned.grows {f g : Function} {x : Operand} (h : x.Owned f) (hg : f.Grows g) :
    x.Owned g := by
  cases x with
  | result r =>
    obtain ⟨i, hi, hr⟩ := h
    exact ⟨i, hg.blocks.code hi, hr⟩
  | param => exact (show _ = f.id from h).trans hg.id.symm
  | hole => exact h
  | real | truth | func => trivial

theorem Operation.Owned.grows {f g : Function} {o : Operation} (h : o.Owned f) (hg : f.Grows g) :
    o.Owned g where
  args x hx := (h.args x hx).grows hg
  slot s hs := by
    rw [hg.id]
    exact h.slot s hs
  targets t ht := by
    obtain ⟨r, hr, he⟩ := h.targets t ht
    exact ⟨r, hg.blocks.refs hr, he⟩
  br := h.br
  condBr := h.condBr

namespace Function

variable {f : Function} {o : Operation}

theorem demand_of_eq {c : Bool} (cause : CodeCause) (h : c = true) : demand c cause = .ok () := by
  rw [h]
  rfl

theorem verifyOperand_of_owned (op : Opcode) {want : Ty} {x : Operand} (h : x.Owned f)
    (hty : x.ty = want) : f.verifyOperand op want x = .ok () := by
  have htype := demand_of_eq (.operandType op want x.ty) (decide_eq_true hty)
  cases x with
  | result r =>
    obtain ⟨i, hi, rfl⟩ := h
    obtain ⟨b, hb, hib⟩ := mem_code.mp hi
    have hdef : f.defines i.ref = true := by
      simp only [defines, List.any_eq_true, beq_iff_eq]
      exact ⟨b, hb, i, hib, rfl⟩
    simp only [verifyOperand, hdef, demand_of_eq _ rfl]
    exact htype
  | param fn =>
    obtain rfl : fn = f.id := h
    simp only [verifyOperand, decide_true, demand_of_eq _ rfl]
    exact htype
  | hole => exact h.elim
  | real | truth | func => exact htype

theorem forM_of_forall {α : Type} {g : α → Except CodeCause Unit} {xs : List α}
    (h : ∀ x ∈ xs, g x = .ok ()) : xs.forM g = .ok () := by
  induction xs with
  | nil => rfl
  | cons x xs ih =>
    change (g x >>= fun _ => xs.forM g) = .ok ()
    rw [h x List.mem_cons_self]
    exact ih fun y hy => h y (List.mem_cons_of_mem _ hy)

theorem verifyOperands_of_owned {want : Ty} {n : Nat} (h : ∀ x ∈ o.args, x.Owned f)
    (htys : o.args.map Operand.ty = List.replicate n want) :
    f.verifyOperands o want n = .ok () := by
  obtain ⟨hlen, hty⟩ := List.eq_replicate_iff.mp htys
  rw [List.length_map] at hlen
  rw [verifyOperands, demand_of_eq _ (decide_eq_true hlen)]
  exact forM_of_forall fun x hx =>
    verifyOperand_of_owned _ (h x hx) (hty _ (List.mem_map_of_mem hx))

theorem verifyTarget_of_owned (h : o.Owned f) {t : Option BlockRef} (ht : t ∈ o.targets) :
    f.verifyTarget t = .ok () := by
  obtain ⟨r, hr, rfl⟩ := h.targets t ht
  obtain ⟨b, hb, rfl⟩ := List.mem_map.mp hr
  refine demand_of_eq _ ?_
  simp only [Option.any_some, List.any_eq_true, beq_iff_eq]
  exact ⟨b, hb, rfl⟩

theorem verifySlot_of_owned (h : o.Owned f) {s : Slot} (hs : o.slot = some s) :
    demand (s.isGlobal || s.home = .activation f.id) (.foreignSlot o.op) = .ok () := by
  refine demand_of_eq _ ?_
  rcases h.slot s hs with hg | hh
  · simp [hg]
  · simp [hh]

theorem slot_of_verifyOperation (ho : o.op = .load ∨ o.op = .store)
    (h : f.verifyOperation o = .ok ()) {s : Slot} (hs : o.slot = some s) : s.Owned f.id := by
  have hslot : demand (s.isGlobal || s.home = .activation f.id) (.foreignSlot o.op) = .ok () := by
    unfold verifyOperation at h
    rcases ho with ho | ho <;> simp only [ho, hs] at h ⊢ <;>
      obtain ⟨⟨⟩, h, -⟩ := Stateful.except_bind_eq_ok h <;> exact h
  simpa [Slot.Owned] using demand_eq_ok hslot

theorem verifyCall_of_owned (h : o.Owned f) {params : List Ty}
    (htys : o.args.map Operand.ty = params) :
    (o.args.zip params).forM (fun (x, ty) => f.verifyOperand o.op ty x) = .ok () := by
  refine forM_of_forall fun p hp => ?_
  subst htys
  obtain ⟨k, hk, rfl⟩ := List.getElem_of_mem hp
  have hk' : k < o.args.length := by simpa using hk
  simp only [List.getElem_zip, List.getElem_map]
  exact verifyOperand_of_owned _ (h.args _ (List.getElem_mem hk')) rfl

theorem verifyOperation_of_owned (ht : o.Typed f.ref.ret) (h : o.Owned f) :
    f.verifyOperation o = .ok () := by
  have hall : ∀ {want : Ty} {n : Nat}, o.args.map Operand.ty = List.replicate n want →
      f.verifyOperands o want n = .ok () := verifyOperands_of_owned h.args
  unfold Operation.Typed at ht
  unfold verifyOperation
  cases ho : o.op <;> simp only [ho] at ht ⊢
  case makeColl =>
    refine hall (List.eq_replicate_iff.mpr ⟨List.length_map _, fun ty hty => ht ty hty⟩)
  case load =>
    obtain ⟨⟨s, hs⟩, -⟩ := ht
    have hslot := verifySlot_of_owned h hs
    rw [ho] at hslot
    simp only [hs, hslot]
    rfl
  case store =>
    obtain ⟨s, hs, htys⟩ := ht
    have hslot := verifySlot_of_owned h hs
    rw [ho] at hslot
    simp only [hs, hslot]
    exact hall htys
  case call =>
    obtain ⟨c, hc, htys⟩ := ht
    have hcall := verifyCall_of_owned h htys
    rw [ho] at hcall
    have hlen : o.args.length = c.params.length := by rw [← htys, List.length_map]
    simp only [hc, demand_of_eq _ (decide_eq_true hlen)]
    exact hcall
  case callIndirect =>
    obtain ⟨n, htys⟩ := ht
    cases ha : o.args with
    | nil => simp [ha] at htys
    | cons callee args =>
      rw [ha, List.map_cons, List.cons.injEq] at htys
      obtain ⟨hlen, hty⟩ := List.eq_replicate_iff.mp htys.2
      rw [List.length_map] at hlen
      have hargs := ha ▸ h.args
      simp only [hlen, verifyOperand_of_owned .callIndirect (hargs _ List.mem_cons_self) htys.1]
      exact forM_of_forall fun x hx => verifyOperand_of_owned _
        (hargs _ (List.mem_cons_of_mem _ hx)) (hty _ (List.mem_map_of_mem hx))
  case br =>
    obtain ⟨t, htargets⟩ := List.length_eq_one_iff.mp (h.br ho)
    rw [htargets]
    exact verifyTarget_of_owned h (by simp [htargets])
  case condBr =>
    obtain ⟨yes, no, htargets⟩ := List.length_eq_two.mp (h.condBr ho)
    rw [htargets]
    simp only [hall (n := 1) ht, verifyTarget_of_owned h (t := yes) (by simp [htargets])]
    exact verifyTarget_of_owned h (by simp [htargets])
  case ret =>
    split at ht
    · rw [if_pos ‹_›]
      exact demand_of_eq _ (by simpa using ht)
    · rw [if_neg ‹_›]
      exact hall ht
  all_goals exact hall ht

structure Sane (f : Function) : Prop where
  code : f.native = false
  ret : f.ref.ret = .real
  home : ∀ b ∈ f.blocks, b.ref.fn = f.id
  instr : ∀ b ∈ f.blocks, ∀ i ∈ b.instrs, i.block = b.ref ∧ i.toOperation.Typed .real ∧
    i.toOperation.Owned f
  early : ∀ b ∈ f.blocks, ∀ i ∈ b.instrs.dropLast, i.isTerminator = false
  slots : ∀ s ∈ f.slots, s.ty ≠ .void

theorem verifyInstrs_of_forall {r : BlockRef} {is : List Instr}
    (hi : ∀ i ∈ is, i.block = r ∧ f.verifyOperation i.toOperation = .ok ())
    (hearly : ∀ i ∈ is.dropLast, i.isTerminator = false)
    (hend : ∀ i ∈ is.getLast?, i.isTerminator = true) : f.verifyInstrs r is = .ok () := by
  induction is with
  | nil => rfl
  | cons i is ih =>
    obtain ⟨hblock, hop⟩ := hi i List.mem_cons_self
    have hrest : f.verifyInstrs r is = .ok () := by
      cases is with
      | nil => rfl
      | cons j js =>
        refine ih (fun k hk => hi k (List.mem_cons_of_mem _ hk))
          (fun k hk => hearly k (List.mem_cons_of_mem _ hk)) fun k hk => hend k ?_
        rwa [List.getLast?_cons_cons]
    have hlink := demand_of_eq (c := i.block == r) (.foreignLink i.op) (by simpa using hblock)
    have htail : (do
        demand (i.block == r) (.foreignLink i.op)
        f.verifyOperation i.toOperation
        f.verifyInstrs r is) = .ok () := by
      rw [hlink, hop]
      exact hrest
    rw [verifyInstrs]
    cases is with
    | nil =>
      have hterm := demand_of_eq .openBlock (hend i rfl)
      simp only [List.isEmpty_nil, if_true, hterm]
      exact htail
    | cons j js =>
      have hterm := demand_of_eq (.earlyEnd i.op)
        (show (!i.isTerminator) = true by simpa using hearly i List.mem_cons_self)
      simp only [List.isEmpty_cons, Bool.false_eq_true, if_false, hterm]
      exact htail

theorem verify_of_owned (hn : f.native = false) (hbody : f.hasBody = true)
    (hhome : ∀ b ∈ f.blocks, b.ref.fn = f.id)
    (hinstr : ∀ b ∈ f.blocks, ∀ i ∈ b.instrs, i.block = b.ref ∧ i.toOperation.Typed f.ref.ret ∧
      i.toOperation.Owned f)
    (hearly : ∀ b ∈ f.blocks, ∀ i ∈ b.instrs.dropLast, i.isTerminator = false)
    (hend : ∀ b ∈ f.blocks, b.terminator?.isSome = true) : f.verify = .ok () := by
  have hblock : ∀ b ∈ f.blocks, f.verifyBlock b = .ok () := by
    intro b hb
    obtain ⟨t, ht⟩ := Option.isSome_iff_exists.mp (hend b hb)
    obtain ⟨hlast, hterm⟩ := Option.filter_eq_some_iff.mp ht
    have hne : b.instrs ≠ [] := by
      intro hn
      rw [hn] at hlast
      cases hlast
    rw [verifyBlock, demand_of_eq _ (decide_eq_true (hhome b hb)),
      demand_of_eq _ (show (!b.instrs.isEmpty) = true by simpa using hne)]
    refine verifyInstrs_of_forall (fun i hi => ?_) (hearly b hb) fun i hi => ?_
    · obtain ⟨hlink, htyped, howned⟩ := hinstr b hb i hi
      exact ⟨hlink, verifyOperation_of_owned htyped howned⟩
    · cases hi.symm.trans hlast
      exact hterm
  rw [Function.verify, hn, hbody]
  simp only [Bool.false_eq_true, if_false, Bool.not_true]
  have hall : ∀ bs : List Block, (∀ b ∈ bs, f.verifyBlock b = .ok ()) →
      bs.forM (fun b => (f.verifyBlock b).mapError fun cause =>
        ({ function := f.name, block := b.ref.name, cause := cause } : CodeError)) = .ok () := by
    intro bs hbs
    induction bs with
    | nil => rfl
    | cons b bs ih =>
      change ((f.verifyBlock b).mapError _ >>= fun _ => bs.forM _) = .ok ()
      rw [hbs b List.mem_cons_self]
      exact ih fun c hc => hbs c (List.mem_cons_of_mem _ hc)
  exact hall f.blocks hblock

theorem Sane.verify (h : f.Sane) (hbody : f.hasBody = true)
    (hend : ∀ b ∈ f.blocks, b.terminator?.isSome = true) : f.verify = .ok () :=
  verify_of_owned h.code hbody h.home (h.ret ▸ h.instr) h.early hend

theorem Sane.addSlot (h : f.Sane) (name : String) {ty : Ty} (hty : ty ≠ .void) :
    (f.addSlot name ty).2.Sane where
  code := h.code
  ret := h.ret
  home := h.home
  instr b hb i hi := by
    obtain ⟨hlink, htyped, howned⟩ := h.instr b hb i hi
    exact ⟨hlink, htyped, howned.grows (f.grows_addSlot name ty)⟩
  early := h.early
  slots s hs := by
    rcases List.mem_append.mp hs with hs | hs
    · exact h.slots s hs
    · obtain rfl := List.mem_singleton.mp hs
      exact hty

theorem Sane.addBlock (h : f.Sane) (name : String) : (f.addBlock name).2.Sane where
  code := h.code
  ret := h.ret
  home b hb := by
    rcases List.mem_append.mp hb with hb | hb
    · exact h.home b hb
    · obtain rfl := List.mem_singleton.mp hb
      rfl
  instr b hb i hi := by
    rcases List.mem_append.mp hb with hb | hb
    · obtain ⟨hlink, htyped, howned⟩ := h.instr b hb i hi
      exact ⟨hlink, htyped, howned.grows (f.grows_addBlock name)⟩
    · obtain rfl := List.mem_singleton.mp hb
      cases hi
  early b hb i hi := by
    rcases List.mem_append.mp hb with hb | hb
    · exact h.early b hb i hi
    · obtain rfl := List.mem_singleton.mp hb
      cases hi
  slots := h.slots

theorem Sane.open_block (h : f.Sane) {b : Block} (hb : b ∈ f.blocks) (ho : b.terminator? = none)
    {i : Instr} (hi : i ∈ b.instrs) : i.isTerminator = false := by
  rcases List.eq_nil_or_concat b.instrs with hn | ⟨is, last, he⟩
  · rw [hn] at hi
    cases hi
  · rw [List.concat_eq_append] at he
    rw [he] at hi
    rcases List.mem_append.mp hi with hi | hi
    · exact h.early b hb i (by rwa [he, List.dropLast_concat])
    · obtain rfl := List.mem_singleton.mp hi
      simpa [Block.terminator?, he, Option.filter] using ho

theorem Sane.emit (h : f.Sane) {point : BlockRef} {d : Draft} (hg : f.Grows (f.emit point d).2)
    (hopen : ∀ b ∈ f.blocks, b.ref = point → b.terminator? = none)
    (htyped : d.toOperation.Typed .real) (howned : d.toOperation.Owned f) :
    (f.emit point d).2.Sane := by
  have hblock : ∀ b ∈ (f.emit point d).2.blocks, ∃ c ∈ f.blocks, b.ref = c.ref ∧
      (b = c ∨ c.terminator? = none ∧ b = c.push (f.nextInstr point d) ∧ c.ref = point) := by
    intro b hb
    obtain ⟨c, hc, rfl⟩ := List.mem_map.mp hb
    refine ⟨c, hc, ?_⟩
    by_cases hr : c.ref = point
    · exact ⟨by simp [hr, Block.push], .inr ⟨hopen c hc hr, by simp [hr]; rfl, hr⟩⟩
    · simp [hr]
  refine ⟨h.code, h.ret, fun b hb => ?_, fun b hb i hi => ?_, fun b hb i hi => ?_, h.slots⟩
  · obtain ⟨c, hc, hr, -⟩ := hblock b hb
    exact hr ▸ h.home c hc
  · obtain ⟨c, hc, -, rfl | ⟨-, rfl, hr⟩⟩ := hblock b hb
    · obtain ⟨hlink, ht, ho⟩ := h.instr b hc i hi
      exact ⟨hlink, ht, ho.grows hg⟩
    · rcases List.mem_append.mp hi with hi | hi
      · obtain ⟨hlink, ht, ho⟩ := h.instr c hc i hi
        exact ⟨hlink, ht, ho.grows hg⟩
      · obtain rfl := List.mem_singleton.mp hi
        exact ⟨hr.symm, htyped, howned.grows hg⟩
  · obtain ⟨c, hc, -, rfl | ⟨ho, rfl, -⟩⟩ := hblock b hb
    · exact h.early b hc i hi
    · rw [Block.push, List.dropLast_concat] at hi
      exact h.open_block hc ho hi

end Function

end RealScript
