import RealScript.Proofs.Lowering.Lawful
import RealScript.Proofs.Optimize.Preservation

/-! # Optimised code is lawful

Passes drop instructions and put constants in the place of operands, but they keep every store that
was on the way to an instruction. So what made code lawful is still there when a function is
optimised.
-/

namespace RealScript

structure Instr.Becomes (i i' : Instr) : Prop where
  ref : i'.ref = i.ref
  slot : i'.slot = i.slot
  callee : i'.callee = i.callee
  op : i'.op = i.op ∧ i'.args.map Operand.ty = i.args.map Operand.ty ∨
    i.op = .condBr ∧ i'.op = .br ∧ i'.args = []
  args : ∀ x ∈ i'.args, x ∈ i.args ∨ ∃ c, x.number? = some c

namespace Instr.Becomes

variable {m : Module} {f : Function} {i i' : Instr}

theorem refl (i : Instr) : i.Becomes i := ⟨rfl, rfl, rfl, .inl ⟨rfl, rfl⟩, fun _ h => .inl h⟩

section

variable (h : i.Becomes i')

include h

theorem op_eq_iff {o : Opcode} (ho : o ≠ .br) (ho' : o ≠ .condBr) : i'.op = o ↔ i.op = o := by
  rcases h.op with ⟨he, -⟩ | ⟨he, he', -⟩
  · rw [he]
  · simp [he, he', ho.symm, ho'.symm]

theorem mem_args {x : Operand} (hx : x ∈ i'.args) (hn : x.number? = none) : x ∈ i.args := by
  refine (h.args x hx).resolve_right ?_
  rintro ⟨c, hc⟩
  rw [hn] at hc
  cases hc

theorem mem_refs {r : FuncRef} (hr : r ∈ i'.toOperation.refs) : r ∈ i.toOperation.refs := by
  rcases List.mem_append.mp hr with hr | hr
  · exact List.mem_append_left _ (h.callee ▸ hr)
  · obtain ⟨x, hx, he⟩ := List.mem_filterMap.mp hr
    refine List.mem_append_right _ (List.mem_filterMap.mpr ⟨x, h.mem_args hx ?_, he⟩)
    cases x <;> first | rfl | cases he

theorem resultTy_eq : i'.toOperation.resultTy = i.toOperation.resultTy := by
  unfold Operation.resultTy
  rw [h.slot, h.callee]
  rcases h.op with ⟨he, -⟩ | ⟨he, he', -⟩
  · rw [he]
  · rw [he, he']

theorem legal (hi : i.Legal m f) : i'.Legal m f where
  slot s hs := hi.slot s (h.slot ▸ hs)
  store s hs ho hh := hi.store s (h.slot ▸ hs)
    ((h.op_eq_iff (o := .store) (by simp) (by simp)).mp ho) hh
  refs r hr := hi.refs r (h.mem_refs hr)
  value r hr := hi.value r (h.mem_args hr rfl)
  params k index name ty hp := hi.params k index name ty (h.mem_args hp rfl)
  type := by rw [h.ref, h.resultTy_eq, hi.type]
  register := by rw [h.ref, hi.register]

theorem typed {ret : Ty} (hi : i.toOperation.Typed ret) : i'.toOperation.Typed ret := by
  unfold Operation.Typed at hi ⊢
  rcases h.op with ⟨he, ha⟩ | ⟨-, he', ha⟩
  · dsimp only at hi ⊢
    rw [he, ha, h.slot, h.callee]
    exact hi
  · simp only [he', ha, List.map_nil]

theorem needs {reach : Nat → Nat} {fn : Nat} {φ : Fact}
    (hn : i'.toOperation.Needs reach fn φ) : i.toOperation.Needs reach fn φ := by
  cases hn with
  | result hr => exact .result (h.mem_args hr rfl)
  | slot ho hs hr =>
    exact .slot ((h.op_eq_iff (o := .load) (by simp) (by simp)).mp ho) (h.slot ▸ hs) hr
  | function hf hk hlt => exact .function (h.mem_refs hf) hk hlt

theorem isTerminator_eq : i'.isTerminator = i.isTerminator := by
  unfold Instr.isTerminator
  rcases h.op with ⟨he, -⟩ | ⟨he, he', -⟩
  · rw [he]
  · rw [he, he']
    rfl

theorem mem_facts {φ : Fact} : φ ∈ i'.facts ↔ φ ∈ i.facts := by
  unfold Instr.facts
  rw [h.ref, h.slot, h.isTerminator_eq]
  simp only [h.op_eq_iff (o := .store) (by simp) (by simp)]

end

end Instr.Becomes

/-- New code stands only where the old code can stand, with the same stores behind it and with all
the results that it uses. -/
structure Reflected (bs bs' : List Block) : Prop where
  code : ∀ i' ∈ code bs', ∃ i ∈ RealScript.code bs, i.Becomes i'
  stands : ∀ ds' b', Path bs' ds' b' → ∀ pre' i' post', b'.instrs = pre' ++ i' :: post' →
    ∃ ds b pre i post, Path bs ds b ∧ b.instrs = pre ++ i :: post ∧ i.Becomes i' ∧
      ∀ j ∈ RealScript.code bs, j.op = .store ∨ j.isTerminator = false ∧ .result j.ref ∈ i'.args →
        j.ref ∈ ds ++ pre.map (·.ref) → j.ref ∈ ds' ++ pre'.map (·.ref)

namespace Reflected

variable {n : Nat} {bs bs' : List Block}

theorem recorded (S : Sound n bs) (h : Reflected bs bs') {ds' : List ResultRef} {b' : Block}
    (hp : Path bs' ds' b') {pre' post' : List Instr} {i' : Instr}
    (hi : b'.instrs = pre' ++ i' :: post') :
    ∃ ds b pre i post, Path bs ds b ∧ b.instrs = pre ++ i :: post ∧ i.Becomes i' ∧
      ∀ φ, (∀ r, φ = .result r → .result r ∈ i'.args) → Recorded bs (ds ++ pre.map (·.ref)) φ →
        Recorded bs' (ds' ++ pre'.map (·.ref)) φ := by
  obtain ⟨ds, b, pre, i, post, hpath, he, hb, hall⟩ := h.stands ds' b' hp pre' i' post' hi
  refine ⟨ds, b, pre, i, post, hpath, he, hb, ?_⟩
  rintro φ hused ⟨j, hj, hφ, hr⟩
  have hr' : j.ref ∈ ds' ++ pre'.map (·.ref) := by
    refine hall j hj ?_ hr
    cases φ with
    | result r =>
      obtain ⟨hterm, rfl⟩ := Instr.result_mem_facts.mp hφ
      exact .inr ⟨hterm, hused _ rfl⟩
    | stored home k => exact .inl (Instr.op_of_stored hφ)
  -- The instruction is still there: a result on a path is the result of some instruction.
  obtain ⟨j', hj', href⟩ : ∃ j' ∈ RealScript.code bs', j'.ref = j.ref := by
    rcases List.mem_append.mp hr' with h | h
    · exact hp.mem_results h
    · obtain ⟨j', hj', he⟩ := List.mem_map.mp h
      exact ⟨j', mem_code.mpr ⟨b', hp.mem, by simp [hi, hj']⟩, he⟩
  obtain ⟨j₀, hj₀, hb₀⟩ := h.code j' hj'
  obtain rfl := S.eq_of_ref_eq hj₀ hj (hb₀.ref.symm.trans href)
  exact ⟨j', hj', hb₀.mem_facts.mpr hφ, href ▸ hr'⟩

end Reflected

theorem Regular.reflected {n : Nat} {bs : List Block} {keep : Block → Bool}
    {τ : Instr → Option Instr} (S : Sound n bs) (h : Regular n bs keep τ)
    (hb : ∀ i ∈ code bs, ∀ i', τ i = some i' → i.Becomes i')
    (hs : ∀ i ∈ code bs, i.op = .store → τ i ≠ none)
    (hu : ∀ i ∈ code bs, ∀ i', τ i = some i' → ∀ j ∈ code bs, .result j.ref ∈ i'.args → τ j ≠ none)
    :
    Reflected bs (rewriteBlocks keep τ bs) where
  code i' hi' := by
    obtain ⟨b, hb', -, i, hi, hτ⟩ := mem_code_rewrite hi'
    have hic : i ∈ RealScript.code bs := mem_code.mpr ⟨b, hb', hi⟩
    exact ⟨i, hic, hb i hic i' hτ⟩
  stands ds' b' hp' pre' i' post' he := by
    obtain ⟨ds, b, pre, i, post, hp, hi, hτ, hall⟩ := h.reflect S hp' he
    have hic : i ∈ RealScript.code bs := mem_code.mpr ⟨b, hp.mem, by simp [hi]⟩
    refine ⟨ds, b, pre, i, post, hp, hi, hb i hic i' hτ, ?_⟩
    intro j hj ho hr
    refine hall j.ref hr fun j' hj' href => ?_
    obtain rfl := S.eq_of_ref_eq hj' hj href
    rcases ho with ho | ⟨-, ho⟩
    · exact hs j' hj ho
    · exact hu i hic i' hτ j' hj ho

namespace Optimize

variable {n : Nat} {bs bs' : List Block}

section

variable (S : Sound n bs) (ht : ∀ i ∈ code bs, i.ref.ty = i.toOperation.resultTy)

include S ht

theorem ty_apply_constants (x : Operand) : ((constants bs).apply x).ty = x.ty := by
  cases x with
  | result r =>
    rw [Known.apply_result]
    cases hr : (constants bs).lookup r with
    | none => rfl
    | some c =>
      obtain ⟨-, i, hi, rfl, -⟩ := mem_of_lookup_constants S hr
      have hfold := (foldConstants_eq S).2 i hi c hr
      have hnum := Instr.isNumeric_of_fold? hfold
      rw [Option.getD_some, Operand.ty, ht i hi, Operation.resultTy]
      simp only [Instr.fold?, hnum, if_true, Option.bind_eq_bind, Option.bind_eq_some_iff] at hfold
      obtain ⟨xs, -, hc⟩ := hfold
      have hop : (i.mapArgs (constants bs).apply).op = i.op := rfl
      rw [hop] at hnum hc
      cases ho : i.op <;> simp only [ho, Opcode.isNumeric, Bool.false_eq_true] at hnum <;>
        simp only [ho, Opcode.compute, Option.some.injEq] at hc <;> subst hc <;> rfl
  | _ => rfl

theorem becomes_mapArgs (i : Instr) : i.Becomes (i.mapArgs (constants bs).apply) := by
  refine ⟨rfl, rfl, rfl, .inl ⟨rfl, ?_⟩, fun y hy => ?_⟩
  · simp only [Instr.mapArgs, List.map_map]
    exact List.map_congr_left fun x _ => ty_apply_constants S ht x
  · obtain ⟨x, hx, rfl⟩ := List.mem_map.mp hy
    cases x with
    | result r =>
      rw [Known.apply_result]
      cases hr : (constants bs).lookup r with
      | none => exact .inl hx
      | some c => exact .inr (constant_constants bs r c hr)
    | _ => exact .inl hx

theorem reflected_foldConstants : Reflected bs (foldConstants bs).2 := by
  rw [(foldConstants_eq S).1]
  refine (regular_foldConstants S).reflected S (fun i _ i' h => ?_) (fun i hi ho hn => ?_)
    fun i _ i' h j _ hj hn => ?_
  · obtain ⟨-, rfl⟩ := substitute_eq_some.mp h
    exact becomes_mapArgs S ht i
  · obtain ⟨c, hc⟩ := substitute_eq_none.mp hn
    obtain ⟨-, j, hj, he, hnum⟩ := mem_of_lookup_constants S hc
    obtain rfl := S.eq_of_ref_eq hj hi he
    simp [ho, Opcode.isNumeric] at hnum
  · -- What is folded away has its constant wherever it was used.
    obtain ⟨c, hc⟩ := substitute_eq_none.mp hn
    obtain ⟨-, rfl⟩ := substitute_eq_some.mp h
    obtain ⟨x, -, hx⟩ := List.mem_map.mp hj
    obtain ⟨-, hnone⟩ := (constants bs).apply_eq_result (constant_constants bs) hx
    rw [hc] at hnone
    cases hnone

end

theorem reflected_foldBranches (S : Sound n bs) : Reflected bs (foldBranches bs).2 := by
  rw [foldBranches_eq S]
  refine (regular_foldBranches S).reflected S (fun i _ i' h => ?_) (by simp [jumpOr])
    (by simp [jumpOr])
  cases hf : foldBranch? i with
  | none =>
    obtain rfl : i = i' := by simpa [jumpOr, hf] using h
    exact .refl i
  | some j =>
    obtain rfl : j = i' := by simpa [jumpOr, hf] using h
    obtain ⟨ho, -, -, -, -, -, -, -, rfl⟩ := foldBranch?_eq_some hf
    exact ⟨rfl, rfl, rfl, .inr ⟨ho, rfl, rfl⟩, by simp⟩

theorem reflected_removeUnreachable (S : Sound n bs) : Reflected bs (removeUnreachable bs).2 := by
  rw [removeUnreachable_eq]
  refine (rewriting_removeUnreachable S).toRegular.reflected S (fun i _ i' h => ?_)
    (by simp) (by simp)
  cases h
  exact .refl i

theorem reflected_dropUnused (S : Sound n bs) : Reflected bs (dropUnused bs) := by
  rw [dropUnused_eq]
  refine (rewriting_dropUnused S).toRegular.reflected S (fun i _ i' h => ?_) (fun i _ ho => ?_)
    fun i hi i' h j _ hj => ?_
  · obtain rfl := keepUsed_eq_some h
    exact .refl i
  · exact keepUsed_ne_none (.inl (by simp [ho, Opcode.isPure]))
  · obtain rfl := keepUsed_eq_some h
    exact keepUsed_ne_none (.inr (mem_used hi (List.mem_filterMap.mpr ⟨_, hj, rfl⟩)))

theorem Merging.reflected {b next : Block} (S : Sound n bs) (M : Merging bs b next) :
    Reflected bs (merged bs b next) where
  code i' hi' := by
    obtain ⟨c, hc, i, hi, ⟨l, rfl⟩, -⟩ := M.mem_code_merged S.wired hi'
    exact ⟨i, mem_code.mpr ⟨c, hc, hi⟩, rfl, rfl, rfl, .inl ⟨rfl, rfl⟩, fun _ h => .inl h⟩
  stands ds' b' hp' pre' i' post' he := by
    obtain ⟨ds, c, pre, i, post, hp, hi, ⟨l, rfl⟩, hall⟩ := M.reflect S hp' he
    refine ⟨ds, c, pre, i, post, hp, hi, ⟨rfl, rfl, rfl, .inl ⟨rfl, rfl⟩, fun _ h => .inl h⟩, ?_⟩
    intro j hj ho hr
    rcases hall j.ref hr with h | ⟨t, ht, href, hterm⟩
    · exact h
    · obtain rfl := S.eq_of_ref_eq ht hj href
      rcases ho with ho | ⟨ho, -⟩
      · simp [Instr.isTerminator, ho, Opcode.isTerminator] at hterm
      · rw [ho] at hterm
        cases hterm

theorem Pass.reflected (h : Pass bs bs') (S : Sound n bs)
    (ht : ∀ i ∈ code bs, i.ref.ty = i.toOperation.resultTy) : Reflected bs bs' := by
  cases h with
  | foldConstants => exact reflected_foldConstants S ht
  | foldBranches => exact reflected_foldBranches S
  | removeUnreachable => exact reflected_removeUnreachable S
  | merge h =>
    obtain ⟨b, next, M, rfl⟩ := mergeOnce?_eq_some S.wired h
    exact M.reflected S
  | dropUnused => exact reflected_dropUnused S

end Optimize

open Optimize

namespace Function

variable {m : Module} {reach : Nat → Nat} {f : Function} {bs : List Block} {n n' : Nat}

theorem Lawful.reflected (h : f.Lawful m reach) (hp : Pass f.blocks bs) : Reflected f.blocks bs :=
  hp.reflected h.sound fun i hi => (h.legal i hi).type

theorem Lawful.pass (h : f.Lawful m reach) (hp : Pass f.blocks bs) :
    Function.Lawful m reach { f with blocks := bs } where
  sound := (hp.preserves h.sound).sound
  legal i' hi' := by
    obtain ⟨i, hi, hb⟩ := (h.reflected hp).code i' hi'
    have hl := hb.legal (h.legal i hi)
    exact { hl with }
  typed i' hi' := by
    obtain ⟨i, hi, hb⟩ := (h.reflected hp).code i' hi'
    exact hb.typed (h.typed i hi)
  results i' hi' r hr := by
    obtain ⟨i, hi, hb⟩ := (h.reflected hp).code i' hi'
    exact h.results i hi r (hb.mem_args hr rfl)
  founded ds' b' hp' pre' i' post' he φ hφ := by
    obtain ⟨ds, b, pre, i, post, hpath, hi, hb, hall⟩ := (h.reflected hp).recorded h.sound hp' he
    refine hall φ ?_ (h.founded ds b hpath pre i post hi φ (hb.needs hφ))
    rintro r rfl
    exact hφ.mem_args

theorem EndsStored.pass (he : f.EndsStored n n') (h : f.Lawful m reach) (hp : Pass f.blocks bs) :
    Function.EndsStored { f with blocks := bs } n n' := by
  intro ds' b' hp' pre' i' post' hi' hlast k hk hlt
  obtain ⟨ds, b, pre, i, post, hpath, hi, hb, hall⟩ := (h.reflected hp).recorded h.sound hp' hi'
  exact hall _ (by simp) (he ds b hpath pre i post hi (hb.ref ▸ hlast) k hk hlt)

theorem Lawful.chain (h : f.Lawful m reach) (hc : Chain f.blocks bs) :
    Function.Lawful m reach { f with blocks := bs } := by
  induction hc with
  | refl => exact h
  | tail _ hp ih => exact ih.pass hp

theorem EndsStored.chain (he : f.EndsStored n n') (h : f.Lawful m reach) (hc : Chain f.blocks bs) :
    Function.EndsStored { f with blocks := bs } n n' := by
  induction hc with
  | refl => exact he
  | tail hc hp ih => exact ih.pass (h.chain hc) hp

theorem Lawful.optimize (h : f.Lawful m reach) : f.optimize.2.Lawful m reach := by
  obtain ⟨bs, he, hc⟩ := f.chain_optimize
  rw [he]
  exact h.chain hc

theorem EndsStored.optimize (he : f.EndsStored n n') (h : f.Lawful m reach) :
    f.optimize.2.EndsStored n n' := by
  obtain ⟨bs, hbs, hc⟩ := f.chain_optimize
  rw [hbs]
  exact he.chain h hc

end Function

end RealScript
