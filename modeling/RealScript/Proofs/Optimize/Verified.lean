import RealScript.Proofs.Code.Accepted
import RealScript.Proofs.Optimize.Lawful
import RealScript.Proofs.Optimize.NormalForm

/-! # Optimised code is accepted

A pass leaves every instruction in a block of its own function and drops no result that is still
used. When no pass finds anything to do, paths lead to all blocks that are left, so all results that
are used were computed in them. So the optimised form of code that verification accepts is accepted
as well.
-/

namespace RealScript

def Linked (fn : Nat) (bs : List Block) : Prop :=
  ∀ b ∈ bs, b.ref.fn = fn ∧ ∀ i ∈ b.instrs, i.block = b.ref

theorem Recorded.owned {f : Function} {ds : List ResultRef} {r : ResultRef}
    (h : Recorded f.blocks ds (.result r)) : (Operand.result r).Owned f := by
  obtain ⟨j, hj, hφ, -⟩ := h
  exact ⟨j, hj, (Instr.result_mem_facts.mp hφ).2⟩

namespace Optimize

variable {n fn : Nat} {bs bs' : List Block}

theorem Pass.shape (h : Pass bs bs') (S : Sound n bs) :
    (∃ keep τ, Regular n bs keep τ ∧ (∀ i i', τ i = some i' → i'.block = i.block) ∧
      bs' = rewriteBlocks keep τ bs) ∨
    ∃ b next, Merging bs b next ∧ bs' = merged bs b next := by
  cases h with
  | foldConstants =>
    refine .inl ⟨_, _, regular_foldConstants S, fun i i' h => ?_, (foldConstants_eq S).1⟩
    obtain ⟨-, rfl⟩ := substitute_eq_some.mp h
    rfl
  | foldBranches =>
    refine .inl ⟨_, _, regular_foldBranches S, fun i i' h => ?_, foldBranches_eq S⟩
    cases hf : foldBranch? i with
    | none =>
      obtain rfl : i = i' := by simpa [jumpOr, hf] using h
      rfl
    | some j =>
      obtain rfl : j = i' := by simpa [jumpOr, hf] using h
      obtain ⟨-, -, -, -, -, -, -, -, rfl⟩ := foldBranch?_eq_some hf
      rfl
  | removeUnreachable =>
    refine .inl ⟨_, _, (rewriting_removeUnreachable S).toRegular, fun i i' h => ?_,
      removeUnreachable_eq bs⟩
    cases h
    rfl
  | merge h => exact .inr (mergeOnce?_eq_some S.wired h)
  | dropUnused =>
    refine .inl ⟨_, _, (rewriting_dropUnused S).toRegular, fun i i' h => ?_, dropUnused_eq bs⟩
    obtain rfl := keepUsed_eq_some h
    rfl

theorem Pass.head?_ref (h : Pass bs bs') (S : Sound n bs) :
    bs'.head?.map (·.ref) = bs.head?.map (·.ref) := by
  obtain ⟨e, he⟩ := Option.ne_none_iff_exists'.mp (mt List.head?_eq_none_iff.mp S.nonempty)
  rcases h.shape S with ⟨keep, τ, R, -, rfl⟩ | ⟨b, next, M, rfl⟩
  · rw [R.head?_rewriteBlocks he, he]
    rfl
  · rw [M.head?_merged he, he]
    exact congrArg some (takeOver_ref b next e)

theorem Chain.head?_ref (h : Chain bs bs') (S : Sound n bs) :
    bs'.head?.map (·.ref) = bs.head?.map (·.ref) := by
  induction h with
  | refl => rfl
  | tail hc hp ih => exact (hp.head?_ref (Chain.sound hc S)).trans ih

theorem Merging.linked {b next : Block} (h : Linked fn bs) (S : Sound n bs)
    (M : Merging bs b next) :
    Linked fn (merged bs b next) := by
  intro c' hc'
  obtain ⟨c, hc, -, rfl⟩ := mem_merged.mp hc'
  rw [takeOver_ref]
  refine ⟨(h c hc).1, fun i hi => ?_⟩
  by_cases hcb : c.ref = b.ref
  · obtain rfl := List.inj_on_of_nodup_map S.labels hc M.mem hcb
    rw [takeOver_self] at hi
    rcases List.mem_append.mp hi with hi | hi
    · exact (h c hc).2 i (List.dropLast_subset _ hi)
    · obtain ⟨j, -, rfl⟩ := List.mem_map.mp hi
      rfl
  · rw [takeOver_of_ne hcb] at hi
    exact (h c hc).2 i hi

theorem Pass.linked (hp : Pass bs bs') (S : Sound n bs) (h : Linked fn bs) : Linked fn bs' := by
  rcases hp.shape S with ⟨keep, τ, -, hτ, rfl⟩ | ⟨b, next, M, rfl⟩
  · intro b' hb'
    obtain ⟨b, hb, rfl⟩ := List.mem_map.mp hb'
    obtain ⟨hfn, hlink⟩ := h b (List.mem_filter.mp hb).1
    refine ⟨hfn, fun i' hi' => ?_⟩
    obtain ⟨i, hi, hτi⟩ := List.mem_filterMap.mp hi'
    exact (hτ i i' hτi).trans (hlink i hi)
  · exact M.linked h S

end Optimize

open Optimize

namespace Function

variable {m : Module} {reach : Nat → Nat} {f : Function} {bs : List Block}

structure Proper (f : Function) : Prop where
  sound : Sound f.registers f.blocks
  linked : Linked f.id f.blocks
  typed : ∀ i ∈ code f.blocks, i.toOperation.Typed f.ref.ret
  results : ∀ i ∈ code f.blocks, i.ref.ty = i.toOperation.resultTy
  params : ∀ i ∈ code f.blocks, ∀ fn index name ty, .param fn index name ty ∈ i.args → fn = f.id
  slots : ∀ i ∈ code f.blocks, ∀ s, i.slot = some s → s.Owned f.id
  operands : DefinesOperands f.blocks

theorem Proper.pass (h : f.Proper) (hp : Pass f.blocks bs) :
    Function.Proper { f with blocks := bs } := by
  have hr := hp.reflected h.sound h.results
  refine
    { sound := (hp.preserves h.sound).sound
      linked := hp.linked h.sound h.linked
      typed := fun i' hi' => ?_
      results := fun i' hi' => ?_
      params := fun i' hi' fn index name ty hx => ?_
      slots := fun i' hi' s hs => ?_
      operands := fun ds' b' hp' pre' i' post' he r hx => ?_ }
  · obtain ⟨i, hi, hb⟩ := hr.code i' hi'
    exact hb.typed (h.typed i hi)
  · obtain ⟨i, hi, hb⟩ := hr.code i' hi'
    rw [hb.ref, hb.resultTy_eq, h.results i hi]
  · obtain ⟨i, hi, hb⟩ := hr.code i' hi'
    exact h.params i hi fn index name ty (hb.mem_args hx rfl)
  · obtain ⟨i, hi, hb⟩ := hr.code i' hi'
    exact h.slots i hi s (hb.slot ▸ hs)
  · obtain ⟨ds, b, pre, i, post, hpath, hi, hb, hall⟩ := hr.recorded h.sound hp' he
    refine hall _ ?_ (h.operands ds b hpath pre i post hi r (hb.mem_args hx rfl))
    rintro r' hr'
    exact Fact.result.inj hr' ▸ hx

theorem Proper.chain (h : f.Proper) (hc : Chain f.blocks bs) :
    Function.Proper { f with blocks := bs } := by
  induction hc with
  | refl => exact h
  | tail _ hp ih => exact ih.pass hp

theorem Proper.optimize (h : f.Proper) : f.optimize.2.Proper := by
  obtain ⟨bs, he, hc⟩ := f.chain_optimize
  rw [he]
  exact h.chain hc

theorem Proper.verify (h : f.Proper) (hn : f.native = false)
    (hr : ∀ b ∈ f.blocks, ∃ ds, Path f.blocks ds b) : f.verify = .ok () := by
  have hbody : f.hasBody = true := by simpa [hasBody] using h.sound.nonempty
  refine verify_of_owned hn hbody (fun b hb => (h.linked b hb).1) (fun b hb i hi => ?_)
    (fun b hb i hi => ?_) fun b hb => ?_
  · have hic : i ∈ code f.blocks := mem_code.mpr ⟨b, hb, hi⟩
    have hfits := h.sound.fits i hic
    refine ⟨(h.linked b hb).2 i hi, h.typed i hic, fun x hx => ?_, h.slots i hic, hfits.targets,
      fun ho => ?_, fun ho => ?_⟩
    · cases x with
      | result r =>
        obtain ⟨ds, hp⟩ := hr b hb
        obtain ⟨pre, post, he⟩ := List.append_of_mem hi
        exact (h.operands ds b hp pre i post he r hx).owned
      | param k index name ty => exact h.params i hic k index name ty hx
      | hole => exact absurd rfl (hfits.operands _ hx)
      | real | truth | func => trivial
    · obtain ⟨t, ht⟩ := hfits.br ho
      simp [ht]
    · obtain ⟨yes, no, ht⟩ := hfits.condBr ho
      simp [ht]
  · obtain ⟨body, t, he, -, hinner⟩ := h.sound.closed b hb
    rw [he, List.dropLast_concat] at hi
    exact hinner i hi
  · obtain ⟨body, t, he, ht, -⟩ := h.sound.closed b hb
    simp [Block.terminator?, he, ht, Option.filter]

theorem Proper.verify_optimize (h : f.Proper) (hn : f.native = false) :
    f.optimize.2.verify = .ok () := by
  obtain ⟨-, hw, hzero, -⟩ := optimize_of_wired hn h.sound.wired
  exact h.optimize.verify (by simpa using hn) (normal_of_round hw hzero).reached

theorem Proper.head?_optimize (h : f.Proper) :
    f.optimize.2.blocks.head?.map (·.ref) = f.blocks.head?.map (·.ref) := by
  obtain ⟨bs, he, hc⟩ := f.chain_optimize
  rw [he]
  exact Chain.head?_ref hc h.sound

theorem Lawful.proper (h : f.Lawful m reach) (hl : Linked f.id f.blocks)
    (ho : ∀ i ∈ code f.blocks, i.toOperation.Owned f) : f.Proper where
  sound := h.sound
  linked := hl
  typed := h.typed
  results i hi := (h.legal i hi).type
  params i hi _ _ _ _ hx := (ho i hi).args _ hx
  slots i hi := (ho i hi).slot
  operands := h.founded.definesOperands

theorem proper_of_verify (ht : f.Tidy) (hr : f.Resulting) (hn : f.native = false)
    (hv : f.verify = .ok ()) (hd : DefinesOperands f.blocks) : f.Proper where
  sound := sound_of_verify ht hn hv hd.definesBeforeUse
  linked b hb := ⟨(block_of_verify hn hv hb).1, ht.link b hb⟩
  typed _ hi := typed_of_verify ht hn hv hi
  results i hi := (hr i hi).type
  params i hi fn index name ty hx := by
    obtain ⟨b, hb, hib⟩ := mem_code.mp hi
    obtain ⟨_, _, h⟩ := operands_of_verifyOperation (ht.instr i hi).plain
      ((block_of_verify hn hv hb).2.2 i hib) _ hx
    obtain ⟨⟨⟩, h, -⟩ := Stateful.except_bind_eq_ok h
    simpa using demand_eq_ok h
  slots i hi s hs := by
    obtain ⟨b, hb, hib⟩ := mem_code.mp hi
    exact slot_of_verifyOperation ((hr i hi).slot (by simp [hs]))
      ((block_of_verify hn hv hb).2.2 i hib) hs
  operands := hd

structure Retains (f g : Function) : Prop where
  entry : g.blocks.head?.map (·.ref) = f.blocks.head?.map (·.ref)
  ref : g.ref = f.ref
  paramNames : g.paramNames = f.paramNames
  slots : g.slots = f.slots
  registers : g.registers = f.registers

theorem Proper.retains_optimize (h : f.Proper) : f.Retains f.optimize.2 := by
  obtain ⟨bs, he, -⟩ := f.chain_optimize
  exact ⟨h.head?_optimize, by rw [he], by rw [he], by rw [he], by rw [he]⟩

end Function

theorem Builder.Built.optimize_valid {b : Builder} (hb : b.Built) {f : Function}
    (hf : f ∈ b.module.store) (hv : f.verify = .ok ()) (hd : DefinesOperands f.blocks) :
    f.optimize.2.verify = .ok () ∧ DefinesOperands f.optimize.2.blocks ∧ f.Retains f.optimize.2 ∧
      ∀ c ∈ f.optimize.2.blocks, ∀ i ∈ c.instrs, i.block = c.ref := by
  obtain ⟨k, hk⟩ := Array.getElem?_of_mem hf
  have ht := hb.tidy.function k f hk
  cases hn : f.native with
  | true =>
    rw [Machine.optimize_of_native hn]
    exact ⟨hv, hd, ⟨rfl, rfl, rfl, rfl, rfl⟩, ht.link⟩
  | false =>
    have hp := Function.proper_of_verify ht (hb.resulting k f hk) hn hv hd
    exact ⟨hp.verify_optimize hn, hp.optimize.operands, hp.retains_optimize,
      fun c hc => (hp.optimize.linked c hc).2⟩

end RealScript
