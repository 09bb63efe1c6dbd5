import RealScript.Proofs.Lowering.Layout
import RealScript.Proofs.Lowering.Traversal

/-! # What lowering accepts, verification accepts

One lemma for each construct says that it can be lowered wherever its parts can, and the induction
over the tree puts them together. A program is rejected for its names, its types and its numbers of
arguments only; all functions that come out of a program that is not rejected are verified.
-/

namespace RealScript.Lower

variable {f : FuncRef} {params : List String} {cond x : Lower Operand} {code : Opcode}
  {l r v : Operand}
  {pos : Position} {name : String}

open Stateful Lowering

variable {α : Type} {fn : Nat} {framed : Bool} {P : List BlockRef} {s t : Lowering}

def Sure (framed : Bool) (x : Lower α) (Q : Nat → α → Lowering → Prop) : Prop :=
  ∀ fn P s, Site fn framed P s → Lays fn (Site fn framed P) x s (Q fn)

abbrev Puts (fn : Nat) (framed : Bool) (P : List BlockRef) (s : Lowering) (x : Lower Operand)
    (want : Ty → Prop) : Prop :=
  Lays fn (Site fn framed P) x s fun v t => Uses fn t v ∧ want v.ty

theorem Puts.any {want : Ty → Prop} (h : Puts fn framed P s x want) :
    Puts fn framed P s x fun _ => True :=
  h.mono fun _ _ _ h => ⟨h.1, trivial⟩

abbrev Gives (framed : Bool) (x : Lower Operand) (want : Ty → Prop) : Prop :=
  Sure framed x fun fn v t => Uses fn t v ∧ want v.ty

/-! ## Instructions -/

theorem compute_lays {d : Draft} (ho : Build.Offered (.emit d)) (hd : d.op.isTerminator = false)
    (htargets : d.targets = []) (hslot : d.slot = none) (h : Site fn framed P s)
    (htyped : d.toOperation.Typed .real) (hargs : ∀ x ∈ d.args, Uses fn s x) :
    Puts fn framed P s (build (.emit d)) (· = d.ty) := by
  refine emit_lays ho hd h htyped fun f hf => ⟨fun x hx => hargs x hx f hf, ?_, ?_, ?_, ?_⟩
  · intro slot hs
    rw [hslot] at hs
    cases hs
  · simp [htargets]
  · intro hop
    rw [hop] at hd
    cases hd
  · intro hop
    rw [hop] at hd
    cases hd

section

variable (h : Site fn framed P s)

include h

theorem load_lays {slot : Slot} (hslot : slot.Owned fn) :
    Puts fn framed P s (build (.load slot)) (· = slot.ty) := by
  refine emit_lays (d := .load slot) (.load slot) rfl h ⟨⟨slot, rfl⟩, rfl⟩ fun f hf => ?_
  obtain ⟨r, f', b, hat, rfl, hid, -⟩ := h.at
  cases hat.function.symm.trans hf
  refine ⟨by simp [Draft.load], fun slot' hs => ?_, by simp [Draft.load], nofun, nofun⟩
  cases hs
  exact hid.symm ▸ hslot

theorem store_lays {slot : Slot} (hslot : slot.Owned fn) (hv : Uses fn s v) (hty : v.ty = slot.ty) :
    Lays fn (Site fn framed P) (build (.store slot v)) s fun _ _ => True := by
  refine (emit_lays (d := .store slot v) (.store slot v) rfl h
    ⟨slot, rfl, by simp [Draft.store, hty]⟩
    fun f hf => ?_).mono fun _ _ _ _ => trivial
  obtain ⟨r, f', b, hat, rfl, hid, -⟩ := h.at
  cases hat.function.symm.trans hf
  refine ⟨fun x hx => ?_,
    fun slot' hs => ?_, by simp [Draft.store], by simp [Draft.store], by simp [Draft.store]⟩
  · obtain rfl := List.mem_singleton.mp hx
    exact hv _ hf
  · cases hs
    exact hid.symm ▸ hslot

theorem br_lays {c : BlockRef} (hc : Has fn s c) :
    Lays fn (Laid fn framed P) (build (.br (some c))) s fun _ _ => True := by
  refine close_lays (d := .br (some c)) (.br _) rfl h rfl fun f hf => ?_
  refine ⟨by simp [Draft.br], nofun, fun t ht => ?_, fun _ => rfl, nofun⟩
  obtain rfl := List.mem_singleton.mp ht
  exact ⟨c, hc.2 f hf, rfl⟩

theorem condBr_lays (hv : Uses fn s v) (hty : v.ty = .bool)
    {yes no : BlockRef} (hyes : Has fn s yes) (hno : Has fn s no) :
    Lays fn (Laid fn framed P) (build (.condBr v (some yes) (some no))) s fun _ _ => True := by
  refine close_lays (d := .condBr v (some yes) (some no)) (.condBr _ _ _) rfl h
    (by simp [Operation.Typed, Draft.condBr, hty]) fun f hf => ?_
  refine ⟨fun x hx => ?_, by simp [Draft.condBr],
    fun t ht => ?_, by simp [Draft.condBr], fun _ => rfl⟩
  · obtain rfl := List.mem_singleton.mp hx
    exact hv f hf
  · rcases List.mem_cons.mp ht with rfl | ht
    · exact ⟨yes, hyes.2 f hf, rfl⟩
    · obtain rfl := List.mem_singleton.mp ht
      exact ⟨no, hno.2 f hf, rfl⟩

theorem ret_real_lays (hv : Uses fn s v) (hty : v.ty = .real) :
    Lays fn (Laid fn framed P) (build (.ret (some v))) s fun _ _ => True := by
  refine close_lays (d := .ret (some v)) (.ret _) rfl h (by simp [Operation.Typed, Draft.ret, hty])
    fun f hf => ?_
  refine ⟨fun x hx =>
    ?_, by simp [Draft.ret], by simp [Draft.ret], by simp [Draft.ret], by simp [Draft.ret]⟩
  obtain rfl := List.mem_singleton.mp hx
  exact hv f hf

end

/-! ## Expressions -/

theorem uses_real (fn : Nat) (s : Lowering) (x : Float) : Uses fn s (.real x) := fun _ _ => trivial

theorem uses_func (fn : Nat) (s : Lowering) (f : FuncRef) :
    Uses fn s (.func f) := fun _ _ => trivial

theorem toBool_lays (h : Site fn framed P s) (hv : Uses fn s v) (hty : v.ty = .real) :
    Puts fn framed P s (build (.toBool v)) (· = .bool) :=
  compute_lays (d := .toBool v) (.toBool v) rfl rfl rfl h
    (by simp [Operation.Typed, Draft.toBool, hty]) (by simpa [Draft.toBool] using hv)

theorem toReal_lays (h : Site fn framed P s) (hv : Uses fn s v) (hty : v.ty = .bool) :
    Puts fn framed P s (build (.toReal v)) (· = .real) :=
  compute_lays (d := .toReal v) (.toReal v) rfl rfl rfl h
    (by simp [Operation.Typed, Draft.toReal, hty]) (by simpa [Draft.toReal] using hv)

theorem functionValue_sure (f : FuncRef) : Gives framed (functionValue f) fun _ => True := by
  intro fn P s h
  have hty : f.ty ≠ .void := by simp [FuncRef.ty]
  refine (allocate_lays h "functmp" hty).bind fun slot s₁ h₁ _ ⟨hslot, hslotTy⟩ => ?_
  refine (store_lays h₁ hslot (uses_func fn s₁ f) hslotTy.symm).bind fun _ s₂ h₂ _ _ => ?_
  exact (load_lays h₂ hslot).any

theorem requireReal_lays (h : Site fn framed P s) {role : Role} (hv : Uses fn s v) :
    Puts fn framed P s (requireReal role pos v) (· = .real) := by
  unfold requireReal
  split
  · exact .pure h ⟨hv, ‹_›⟩
  · exact .reject (.inr (.inl rfl))

theorem condition_lays (h : Site fn framed P s) (hv : Uses fn s v) :
    Puts fn framed P s (condition pos v) (· = .bool) :=
  (requireReal_lays h hv).bind fun _ _ h₁ _ ⟨hx, hty⟩ => toBool_lays h₁ hx hty

theorem readVariable_sure (pos : Position) (name : String) :
    Gives framed (readVariable pos name) fun _ => True := by
  intro fn P s h
  unfold readVariable
  refine .bind_ok (a := s.scopes.lookup name) rfl ?_
  cases hslot : s.scopes.lookup name with
  | some slot =>
    obtain ⟨r, -, hlaid⟩ := id h
    exact (load_lays h (hlaid.lookup hslot).1).any
  | none =>
    refine .bind_ok (a := s.module.find? name) rfl ?_
    cases s.module.find? name with
    | some f => exact functionValue_sure f.ref fn P s h
    | none => exact .reject (.inl rfl)

theorem assign_lays (hname : Plain name) (h : Site fn framed P s)
    {valuePos targetPos : Position} (hv : Uses fn s v) :
    Puts fn framed P s (assign pos valuePos targetPos name v) fun _ => True := by
  obtain ⟨r, -, hlaid⟩ := id h
  unfold assign
  dsimp only
  split
  · exact .reject_bind (.inr (.inl rfl))
  · rename_i hvoid
    refine .bind_ok (a := s) rfl ?_
    split
    · rename_i slot hvisible
      split
      · exact .reject_bind (.inr (.inl rfl))
      · rename_i hty
        have hslot := hlaid.lookup (Option.filter_eq_some_iff.mp hvisible).1
        refine (store_lays h hslot.1 hv (by simpa [eq_comm] using hty)).bind fun _ s₁ h₁ ho _ => ?_
        exact .pure h₁ ⟨hv.onward hlaid.ready ho, trivial⟩
    · rename_i hvisible
      refine .bind_ok (a := s.module.find? name) rfl ?_
      cases hfun : s.module.find? name with
      | some f => exact .reject_bind (.inl rfl)
      | none =>
        have htop := free_of_hidden hname hlaid.ready hfun hvisible
        refine (newVariable_lays h hvoid rfl htop).bind fun slot s₁ h₁ ho ⟨hslot, hty⟩ => ?_
        have hv₁ := hv.onward hlaid.ready ho
        refine (store_lays h₁ hslot hv₁ hty.symm).bind fun _ s₂ h₂ ho₂ _ => ?_
        exact .pure h₂ ⟨hv₁.onward h₁.ready ho₂, trivial⟩

theorem operation_of_binary {op : String}
    (h : ∃ o ∈ Operator.table, o.isBinary = true ∧ o.spelling = op) (hne : op ≠ "=") :
    (arithmetic? op).isSome ∨ (comparison? op).isSome ∨ (logical? op).isSome := by
  obtain ⟨o, ho, hb, rfl⟩ := h
  simp only [Operator.table, List.mem_cons, List.not_mem_nil, or_false] at ho
  rcases ho with rfl | rfl | rfl | rfl | rfl | rfl | rfl | rfl | rfl | rfl | rfl | rfl
    | rfl | rfl | rfl
  · exact absurd rfl hne
  all_goals first | exact .inl rfl | exact .inr (.inl rfl) | exact .inr (.inr rfl) | cases hb

theorem typed_arithmetic (hc : code.isArithmetic = true) (hl : l.ty = .real) (hr : r.ty = .real) :
    (Draft.arithmetic code l r).toOperation.Typed .real := by
  cases code <;> simp_all [Opcode.isArithmetic, Operation.Typed, Draft.arithmetic]

theorem typed_logic (hc : code.isLogical = true)
    (hl : l.ty = .bool) (hr : r.ty = .bool) : (Draft.logic code l r).toOperation.Typed .real := by
  cases code <;> simp_all [Opcode.isLogical, Operation.Typed, Draft.logic]

theorem arithmetic_lays (h : Site fn framed P s) (hc : code.isArithmetic = true) (hl : Uses fn s l)
    (hr : Uses fn s r) (hlty : l.ty = .real) (hrty : r.ty = .real) :
    Puts fn framed P s (build (.arithmetic code l r)) (· = .real) := by
  obtain ⟨heq, ho, hterm, -⟩ := offered_arithmetic hc l r
  rw [heq]
  exact compute_lays ho hterm rfl rfl h (typed_arithmetic hc hlty hrty)
    (by simp [Draft.arithmetic, hl, hr])

theorem binary_lays (h : Site fn framed P s) {op : String}
    (hop : ∃ o ∈ Operator.table, o.isBinary = true ∧ o.spelling = op) (hne : op ≠ "=")
    (hl : Uses fn s l) (hr : Uses fn s r) :
    Puts fn framed P s (binary pos op l r) fun _ => True := by
  unfold binary
  dsimp only
  split
  · exact .reject_bind (.inr (.inl rfl))
  · rename_i hreal
    obtain ⟨hlty, hrty⟩ : l.ty = .real ∧ r.ty = .real := by simpa using hreal
    split
    · rename_i code hcode
      exact (arithmetic_lays h (isArithmetic_of_arithmetic? hcode) hl hr hlty hrty).any
    · rename_i p _ _
      rw [build_bind]
      refine (compute_lays (d := .compare p l r) (.compare p l r) rfl rfl rfl h
        (by simp [Operation.Typed, Draft.compare, hlty, hrty])
        (by simp [Draft.compare, hl, hr])).bind ?_
      rintro x s₁ h₁ - ⟨hx, hty⟩
      exact (toReal_lays h₁ hx hty).any
    · rename_i code _ _ hcode
      simp only [build_bind]
      refine (toBool_lays h hl hlty).bind ?_
      rintro x s₁ h₁ ho₁ ⟨hx, hxty⟩
      refine (toBool_lays h₁ (hr.onward h.ready ho₁) hrty).bind ?_
      rintro y s₂ h₂ ho₂ ⟨hy, hyty⟩
      obtain ⟨heq, ho, hterm, -⟩ := offered_logic (isLogical_of_logical? hcode) x y
      rw [heq]
      refine (compute_lays ho hterm rfl rfl h₂ (typed_logic (isLogical_of_logical? hcode) hxty hyty)
        (by simp [Draft.logic, hx.onward h₁.ready ho₂, hy])).bind ?_
      rintro z s₃ h₃ - ⟨hz, hzty⟩
      exact (toReal_lays h₃ hz hzty).any
    · rename_i ha hc hg
      rcases operation_of_binary hop hne with h | h | h
      · simp [ha] at h
      · simp [hc] at h
      · simp [hg] at h

theorem unary_lays (h : Site fn framed P s) (hv : Uses fn s v) (hty : v.ty = .real) :
    Puts fn framed P s (build do .toReal (← .not (← .toBool v))) fun _ => True := by
  simp only [build_bind]
  refine (toBool_lays h hv hty).bind ?_
  rintro x s₁ h₁ - ⟨hx, hxty⟩
  refine (compute_lays (d := .not x) (.not x) rfl rfl rfl h₁
    (by simp [Operation.Typed, Draft.not, hxty])
    (by simpa [Draft.not] using hx)).bind ?_
  rintro y s₂ h₂ - ⟨hy, hyty⟩
  exact (toReal_lays h₂ hy hyty).any

/-! ## Calls -/

theorem forM_lays {β : Type} (h : Site fn framed P s) {g : β → Lower Unit} {R : β → Prop}
    {xs : List β} (hg : ∀ x ∈ xs, Lays fn (Site fn framed P) (g x) s fun _ t => t = s ∧ R x) :
    Lays fn (Site fn framed P) (xs.forM g) s fun _ t => t = s ∧ ∀ x ∈ xs, R x := by
  induction xs with
  | nil => exact .pure h ⟨rfl, by simp⟩
  | cons x xs ih =>
    change Lays fn (Site fn framed P) (g x >>= fun _ => xs.forM g) s _
    refine (hg x List.mem_cons_self).bind ?_
    rintro _ t - - ⟨rfl, hx⟩
    exact (ih fun y hy => hg y (List.mem_cons_of_mem _ hy)).mono fun _ _ _ ⟨ht, hxs⟩ =>
      ⟨ht, by simpa using ⟨hx, hxs⟩⟩

theorem checkArguments_lays (h : Site fn framed P s) {callee : String}
    {want : List Ty} {args : List (Position × Operand)} :
    Lays fn (Site fn framed P) (checkArguments pos callee want args) s fun vs t =>
      t = s ∧ vs = args.map Prod.snd ∧ vs.map Operand.ty = want := by
  unfold checkArguments
  dsimp only
  split
  · exact .reject_bind (.inr (.inr rfl))
  · rename_i hlen
    have hlen : args.length = want.length := by simpa using hlen
    refine (forM_lays h (R := fun x => x.1.1.2.ty = x.1.2) fun x _ => ?_).bind ?_
    · split
      · exact .pure h ⟨rfl, ‹_›⟩
      · exact .reject (.inr (.inl rfl))
    · rintro _ t - - ⟨rfl, hall⟩
      refine .pure h ⟨rfl, rfl, List.ext_getElem (by simpa using hlen) fun k hk hk' => ?_⟩
      have hk : k < args.length := by simpa using hk
      have := hall ((args[k], want[k]), k + 1) (by
        rw [List.mem_zipIdx_iff_le_and_getElem?_sub]
        simp [hk, hk'])
      simpa using this

def Callee.Owned (fn : Nat) : Callee → Prop
  | .function _ => True
  | .slot x arity => x.Owned fn ∧ x.ty = .func arity

theorem callee_lays (h : Site fn framed P s) (pos : Position) (builtin : Bool) (name : String) :
    Lays fn (Site fn framed P) (callee pos builtin name) s fun c t => t = s ∧ c.Owned fn := by
  obtain ⟨r, -, hlaid⟩ := id h
  unfold callee
  split
  · refine .bind_ok (a := s.module.find? name) rfl ?_
    split
    · exact .pure h ⟨rfl, trivial⟩
    · exact .reject (.inl rfl)
  · refine .bind_ok (a := s.scopes.lookup name) rfl ?_
    split
    · rename_i slot hslot
      split
      · exact .pure h ⟨rfl, (hlaid.lookup hslot).1, ‹_›⟩
      · exact .reject (.inr (.inl rfl))
    · refine .bind_ok (a := s.module.find? name) rfl ?_
      split
      · exact .pure h ⟨rfl, trivial⟩
      · exact .reject (.inl rfl)

theorem call_lays (h : Site fn framed P s) {c : Callee} (hc : c.Owned fn) {args : List Operand}
    (hargs : ∀ x ∈ args, Uses fn s x) (htys : args.map Operand.ty = c.params) :
    Puts fn framed P s (call c args) fun _ => True := by
  cases c with
  | function f =>
    exact (compute_lays (d := .call f args) (.call f args) rfl rfl rfl h ⟨f, rfl, htys⟩ hargs).any
  | slot slot arity =>
    simp only [call, build_bind]
    refine (load_lays h hc.1).bind ?_
    rintro x s₁ h₁ ho ⟨hx, hty⟩
    refine (compute_lays (d := .callIndirect x args) (.callIndirect x args) rfl rfl rfl h₁
      ⟨arity, ?_⟩ fun y hy => ?_).any
    · simp only [Draft.callIndirect, List.map_cons, htys, hty, hc.2]
      rfl
    · rcases List.mem_cons.mp hy with rfl | hy
      · exact hx
      · exact (hargs y hy).onward h.ready ho

theorem collection_lays (h : Site fn framed P s) {elements : List Operand}
    (hargs : ∀ x ∈ elements, Uses fn s x ∧ x.ty = .real) :
    Puts fn framed P s (collection elements) fun _ => True := by
  unfold collection
  split
  · rename_i data _
    exact (compute_lays (d := .constCollection data) (.constCollection data) rfl rfl rfl h rfl
      (by simp [Draft.constCollection])).any
  · refine (compute_lays (d := .makeCollection elements) (.makeCollection elements) rfl rfl rfl h
      (fun ty hty => ?_) fun x hx => (hargs x hx).1).any
    obtain ⟨x, hx, rfl⟩ := List.mem_map.mp hty
    exact (hargs x hx).2

/-! ## Blocks -/

theorem closeBlock_lays (h : Site fn framed P s) {c : BlockRef} (hc : Has fn s c) :
    Lays fn (Laid fn framed P) (closeBlock c) s fun _ _ => True := by
  obtain ⟨r, f, b, hat, -⟩ := h.at
  unfold closeBlock
  refine .bind_ok (a := s) rfl ?_
  simp only [hat.not_terminated, Bool.false_eq_true, if_false]
  exact (br_lays h hc).bind fun _ _ h₁ _ _ => .pure h₁ trivial

theorem closeFunction_lays (h : Site fn framed P s) :
    Lays fn (Laid fn framed P) closeFunction s fun _ _ => True := by
  obtain ⟨r, f, b, hat, -⟩ := h.at
  unfold closeFunction
  refine .bind_ok (a := s) rfl ?_
  simp only [hat.not_terminated, Bool.false_eq_true, if_false]
  exact (ret_real_lays h (uses_real fn s 0) rfl).bind fun _ _ h₁ _ _ => .pure h₁ trivial

theorem Laid.enter (h : Laid fn framed P s) {f : FuncRef} (hf : f.id = fn) :
    Laid fn true P { s with scopes := s.scopes.enter f } := by
  refine ⟨h.ready.enter hf, h.ahead, ⟨h.housed.globals, fun frame hframe x hx => ?_⟩, h.function⟩
  rcases List.mem_cons.mp hframe with rfl | hframe
  · cases hx
  · exact h.housed.locals frame hframe x hx

theorem inFrame_run_error {S : Lowering → Prop} {Q : α → Lowering → Prop} {x : Lower α}
    {e : LowerFailure}
    (hf : currentFunction s = .ok f s)
    (hx : Lays fn S x { s with scopes := s.scopes.enter f } Q)
    (hr : x { s with scopes := s.scopes.enter f } = .error e t) :
    inFrame x s = .error e { t with scopes := t.scopes.leave } ∧ e.Blames ∧
      s.scopes.inner.length ≤ t.scopes.leave.inner.length := by
  obtain ⟨hblames, hle⟩ := hx.error hr
  replace hle : s.scopes.inner.length + 1 ≤ t.scopes.inner.length := hle
  have hne : t.scopes.inner ≠ [] := fun h => by simp [h] at hle
  refine ⟨?_, hblames, ?_⟩
  · rw [inFrame_run hf, hr]
    simp only [bind_run, leave_run hne]
    rfl
  · simp only [Scopes.leave, List.length_drop]
    omega

theorem inFrame_lays {R : List BlockRef} {x : Lower α} (h : Site fn framed P s)
    (hx : ∀ u, Site fn true P u → u.module = s.module →
      Lays fn (Site fn true R) x u fun _ _ => True) :
    Lays fn (Site fn framed R) (inFrame x) s fun _ _ => True := by
  obtain ⟨r, hpoint, hlaid⟩ := id h
  obtain ⟨f, hf, hid, -⟩ := currentFunction_run hlaid.ready
  have hbody := hx { s with scopes := s.scopes.enter f } ⟨r, hpoint, Laid.enter hlaid hid⟩ rfl
  cases hr : x { s with scopes := s.scopes.enter f } with
  | error e u =>
    obtain ⟨hrun, hblames, hle⟩ := inFrame_run_error hf hbody hr
    unfold Lays
    rw [hrun]
    exact ⟨hblames, hle⟩
  | ok a u =>
    unfold Lays at hbody ⊢
    rw [hr] at hbody
    obtain ⟨⟨r', hpoint', hu⟩, ho, -⟩ := hbody
    rw [inFrame_run hf, hr]
    simp only [bind_run, leave_run ho.scopes.inner_ne_nil]
    have hscopes : u.scopes.leave = s.scopes := ho.scopes.leave
    have hready : Ready fn framed { u with scopes := u.scopes.leave } := by
      refine ⟨hu.ready.orderly.step .leave, hu.ready.inside, ?_, fun hi => ?_, ?_⟩
      · rw [hscopes]
        exact hlaid.ready.owner
      · rw [hscopes] at hi
        exact ho.depth.trans (hlaid.ready.top hi)
      · rw [hscopes]
        exact hlaid.ready.frame
    have hhoused : Housed { u with scopes := u.scopes.leave } := by
      rw [hscopes]
      exact ⟨hlaid.housed.globals, hlaid.housed.locals⟩
    have hextends : s.scopes.Extends u.scopes.leave := hscopes ▸ .refl _
    exact ⟨⟨r', hpoint', hready, hu.ahead, hhoused, hu.function⟩,
      ⟨⟨ho.fn, hextends, ho.depth⟩, ho.grows, ho.others, ho.new⟩, trivial⟩

theorem inFrame_error {S : Lowering → Prop} {Q : α → Lowering → Prop} {x : Lower α}
    {e : LowerFailure} (hf : currentFunction s = .ok f s)
    (hbody : Lays fn S x { s with scopes := s.scopes.enter f } Q)
    (hx : inFrame x s = .error e t) :
    e.Blames ∧ s.scopes.inner.length ≤ t.scopes.inner.length := by
  cases hr : x { s with scopes := s.scopes.enter f } with
  | error e' u =>
    obtain ⟨hrun, hblames⟩ := inFrame_run_error hf hbody hr
    cases hrun.symm.trans hx
    exact hblames
  | ok a u =>
    rw [inFrame_run hf, hr] at hx
    simp only [bind_run, leave_run (hbody.ok hr).2.1.scopes.inner_ne_nil] at hx
    cases hx

abbrev SureBody (x : Lower α) : Prop := Sure true x fun _ _ _ => True

theorem inBlock_lays (Q : List BlockRef) {block join : BlockRef} {body : Lower α}
    (hbody : SureBody body) (h : Laid fn framed (Q ++ block :: P) s) (hblock : Has fn s block)
    (hjoin : Has fn s join) :
    Lays fn (Laid fn framed (Q ++ P)) (inBlock block join body) s fun _ _ => True := by
  refine (moveTo_lays Q hblock h).bind fun _ s₁ h₁ ho₁ _ => ?_
  refine (inFrame_lays h₁ fun u hu _ => hbody fn _ u hu).bind fun _ s₂ h₂ ho₂ _ => ?_
  exact closeBlock_lays h₂ ((hjoin.onward h.ready ho₁).onward h₁.ready ho₂)

theorem ifThen_sure {body : Lower α} (hc : Gives framed cond (· = .bool))
    (hbody : SureBody body) : Gives framed (ifThen cond body) fun _ => True := by
  intro fn P s h
  refine (hc fn P s h).bind fun c s₁ h₁ _ ⟨hc₁, hty⟩ => ?_
  refine (createBlock_lays h₁ "then").bind fun yes s₂ _ ho₂ ⟨h₂, hyes₂⟩ => ?_
  refine (createBlock_lays h₂ "ifcont").bind fun join s₃ _ ho₃ ⟨h₃, hjoin₃⟩ => ?_
  have hyes₃ := hyes₂.onward h₂.ready ho₃
  have hc₃ := (hc₁.onward h₁.ready ho₂).onward h₂.ready ho₃
  refine (condBr_lays h₃ hc₃ hty hyes₃ hjoin₃).bind fun _ s₄ h₄ ho₄ _ => ?_
  have hjoin₄ := hjoin₃.onward h₃.ready ho₄
  refine (inBlock_lays [join] hbody h₄ (hyes₃.onward h₃.ready ho₄) hjoin₄).bind
    fun _ s₅ h₅ ho₅ _ => ?_
  refine (moveTo_lays [] (hjoin₄.onward h₄.ready ho₅) h₅).bind fun _ s₆ h₆ _ _ => ?_
  exact .pure h₆ ⟨uses_real fn s₆ 0, trivial⟩

theorem ifElse_sure {body otherwise : Lower α}
    (hc : Gives framed cond (· = .bool)) (hbody : SureBody body) (hother : SureBody otherwise) :
    Gives framed (ifElse cond body otherwise) fun _ => True := by
  intro fn P s h
  refine (hc fn P s h).bind fun c s₁ h₁ _ ⟨hc₁, hty⟩ => ?_
  refine (createBlock_lays h₁ "then").bind fun yes s₂ _ ho₂ ⟨h₂, hyes₂⟩ => ?_
  refine (createBlock_lays h₂ "else").bind fun no s₃ _ ho₃ ⟨h₃, hno₃⟩ => ?_
  refine (createBlock_lays h₃ "ifcont").bind fun join s₄ _ ho₄ ⟨h₄, hjoin₄⟩ => ?_
  have hyes₄ := (hyes₂.onward h₂.ready ho₃).onward h₃.ready ho₄
  have hno₄ := hno₃.onward h₃.ready ho₄
  have hc₄ := ((hc₁.onward h₁.ready ho₂).onward h₂.ready ho₃).onward h₃.ready ho₄
  refine (condBr_lays h₄ hc₄ hty hyes₄ hno₄).bind fun _ s₅ h₅ ho₅ _ => ?_
  have hjoin₅ := hjoin₄.onward h₄.ready ho₅
  refine (inBlock_lays [join, no] hbody h₅ (hyes₄.onward h₄.ready ho₅) hjoin₅).bind
    fun _ s₆ h₆ ho₆ _ => ?_
  have hjoin₆ := hjoin₅.onward h₅.ready ho₆
  refine (inBlock_lays [join] hother h₆ ((hno₄.onward h₄.ready ho₅).onward h₅.ready
    ho₆) hjoin₆).bind
    fun _ s₇ h₇ ho₇ _ => ?_
  refine (moveTo_lays [] (hjoin₆.onward h₆.ready ho₇) h₇).bind fun _ s₈ h₈ _ _ => ?_
  exact .pure h₈ ⟨uses_real fn s₈ 0, trivial⟩

theorem whileLoop_sure {body : Lower α} (hc : Gives true cond (· = .bool))
    (hbody : SureBody body) : Gives framed (whileLoop cond body) fun _ => True := by
  intro fn P s h
  refine (createBlock_lays h "loopstart").bind fun head s₁ _ ho₁ ⟨h₁, hhead₁⟩ => ?_
  refine (createBlock_lays h₁ "loop").bind fun loop s₂ _ ho₂ ⟨h₂, hloop₂⟩ => ?_
  refine (createBlock_lays h₂ "afterloop").bind fun after s₃ _ ho₃ ⟨h₃, hafter₃⟩ => ?_
  have hhead₃ := (hhead₁.onward h₁.ready ho₂).onward h₂.ready ho₃
  refine (br_lays h₃ hhead₃).bind fun _ s₄ h₄ ho₄ _ => ?_
  have hhead₄ := hhead₃.onward h₃.ready ho₄
  refine (moveTo_lays [after, loop] hhead₄ h₄).bind fun _ s₅ h₅ ho₅ _ => ?_
  have hhead₅ := hhead₄.onward h₄.ready ho₅
  have hloop₅ := ((hloop₂.onward h₂.ready ho₃).onward h₃.ready ho₄).onward h₄.ready ho₅
  have hafter₅ := (hafter₃.onward h₃.ready ho₄).onward h₄.ready ho₅
  refine (inFrame_lays (R := P) h₅ fun s₆ h₆ hm => ?_).bind fun _ s' h' _ _ =>
    .pure h' ⟨uses_real fn s' 0, trivial⟩
  have hsame : ∀ {c}, Has fn s₅ c → Has fn s₆ c := fun hc => ⟨hc.1, fun f hf => hc.2 f (hm ▸ hf)⟩
  refine (hc fn _ s₆ h₆).bind fun c s₇ h₇ ho₇ ⟨hc₇, hty⟩ => ?_
  have hloop₇ := (hsame hloop₅).onward h₆.ready ho₇
  have hafter₇ := (hsame hafter₅).onward h₆.ready ho₇
  refine (condBr_lays h₇ hc₇ hty hloop₇ hafter₇).bind fun _ s₈ h₈ ho₈ _ => ?_
  refine (moveTo_lays [after] (hloop₇.onward h₇.ready ho₈) h₈).bind fun _ s₉ h₉ ho₉ _ => ?_
  refine (hbody fn _ s₉ h₉).bind fun _ s₁₀ h₁₀ ho₁₀ _ => ?_
  have hkeep : ∀ {c}, Has fn s₇ c → Has fn s₁₀ c := fun hc =>
    ((hc.onward h₇.ready ho₈).onward h₈.ready ho₉).onward h₉.ready ho₁₀
  refine (closeBlock_lays h₁₀ (hkeep ((hsame hhead₅).onward h₆.ready ho₇))).bind
    fun _ s₁₁ h₁₁ ho₁₁ _ => ?_
  exact moveTo_lays [] ((hkeep hafter₇).onward h₁₀.ready ho₁₁) h₁₁

theorem forLoop_sure {var : String} {start step : Lower Operand}
    {body : Lower α} (hs : Gives framed start (· = .real)) (hbody : SureBody body)
    (hp : Gives true step (· = .real)) (hc : Gives true cond (· = .bool)) :
    Gives framed (forLoop pos var start body step cond) fun _ => True := by
  intro fn P s h
  refine (hs fn P s h).bind fun first s₁ h₁ _ ⟨hfirst₁, hfirstTy⟩ => ?_
  refine (inFrame_lays (R := P) h₁ fun s₂ h₂ hm => ?_).bind fun _ s' h' _ _ =>
    .pure h' ⟨uses_real fn s' 0, trivial⟩
  have hfirst₂ : Uses fn s₂ first := fun f hf => hfirst₁ f (hm ▸ hf)
  refine (newVariable_lays h₂ (by simp) rfl fun hi => absurd hi (h₂.ready.frame rfl)).bind
    fun slot s₃ h₃ ho₃ ⟨hslot, hslotTy⟩ => ?_
  refine (store_lays h₃ hslot (hfirst₂.onward h₂.ready ho₃) (hfirstTy.trans hslotTy.symm)).bind
    fun _ s₄ h₄ _ _ => ?_
  refine (createBlock_lays h₄ "forbody").bind fun loop s₅ _ _ ⟨h₅, hloop₅⟩ => ?_
  refine (createBlock_lays h₅ "forafter").bind fun after s₆ _ ho₆ ⟨h₆, hafter₆⟩ => ?_
  have hloop₆ := hloop₅.onward h₅.ready ho₆
  refine (br_lays h₆ hloop₆).bind fun _ s₇ h₇ ho₇ _ => ?_
  have hloop₇ := hloop₆.onward h₆.ready ho₇
  refine (moveTo_lays [after] hloop₇ h₇).bind fun _ s₈ h₈ ho₈ _ => ?_
  refine (hbody fn _ s₈ h₈).bind fun _ s₉ h₉ ho₉ _ => ?_
  refine (hp fn _ s₉ h₉).bind fun increment s₁₀ h₁₀ ho₁₀ ⟨hinc, hincTy⟩ => ?_
  refine (hc fn _ s₁₀ h₁₀).bind fun c s₁₁ h₁₁ ho₁₁ ⟨hcond, hcondTy⟩ => ?_
  refine (load_lays h₁₁ hslot).bind fun current s₁₂ h₁₂ ho₁₂ ⟨hcurrent, hcurrentTy⟩ => ?_
  have hinc₁₂ := (hinc.onward h₁₀.ready ho₁₁).onward h₁₁.ready ho₁₂
  refine (arithmetic_lays h₁₂ rfl hcurrent hinc₁₂ (hcurrentTy.trans hslotTy) hincTy).bind
    fun next s₁₃ h₁₃ ho₁₃ ⟨hnext, hnextTy⟩ => ?_
  refine (store_lays h₁₃ hslot hnext (hnextTy.trans hslotTy.symm)).bind fun _ s₁₄ h₁₄ ho₁₄ _ => ?_
  have hkeep : ∀ {c}, Has fn s₇ c → Has fn s₁₄ c := fun hc =>
    ((((((hc.onward h₇.ready ho₈).onward h₈.ready ho₉).onward h₉.ready ho₁₀).onward h₁₀.ready
      ho₁₁).onward h₁₁.ready ho₁₂).onward h₁₂.ready ho₁₃).onward h₁₃.ready ho₁₄
  have hafter₁₄ := hkeep (hafter₆.onward h₆.ready ho₇)
  have hcond₁₄ := ((hcond.onward h₁₁.ready ho₁₂).onward h₁₂.ready ho₁₃).onward h₁₃.ready ho₁₄
  refine (condBr_lays h₁₄ hcond₁₄ hcondTy (hkeep hloop₇) hafter₁₄).bind fun _ s₁₅ h₁₅ ho₁₅ _ => ?_
  exact moveTo_lays [] (hafter₁₄.onward h₁₄.ready ho₁₅) h₁₅

theorem ret_sure {value : Lower Operand} (hv : Gives framed value fun _ => True) :
    Gives framed (ret pos value) fun _ => True := by
  intro fn P s h
  obtain ⟨r, f, b, hat, rfl, hid, -, hsane, -⟩ := h.at
  obtain ⟨f', hcur, -, g, hg, rfl⟩ := currentFunction_run h.ready
  cases hat.function.symm.trans hg
  refine .bind_ok hcur ?_
  refine (hv _ P s h).bind fun v s₁ h₁ _ ⟨hv₁, _⟩ => ?_
  dsimp only
  split
  · exact .reject_bind (.inr (.inl rfl))
  · rename_i hty
    have hreal : v.ty = .real := by simpa [hsane.ret] using hty
    refine (ret_real_lays h₁ hv₁ hreal).bind fun _ s₂ h₂ ho₂ _ => ?_
    refine (createBlock_laid h₂ "afterret").bind fun after s₃ _ ho₃ ⟨h₃, hafter⟩ => ?_
    refine (moveTo_lays [] hafter h₃).bind fun _ s₄ h₄ ho₄ _ => ?_
    exact .pure h₄ ⟨((hv₁.onward h₁.ready ho₂).onward h₂.ready ho₃).onward h₃.ready ho₄, trivial⟩

/-! ## Functions -/

theorem bindParams_lays (hf : f.id = fn) (index : Nat)
    (names : List String) (h : Site fn true P s) :
    Lays fn (Site fn true P) (bindParams pos f index names) s fun _ _ => True := by
  induction names generalizing index s with
  | nil => exact .pure h trivial
  | cons name names ih =>
    refine (newVariable_lays h (by simp) rfl fun hi => absurd hi (h.ready.frame rfl)).bind
      fun slot s₁ h₁ _ ⟨hslot, hty⟩ => ?_
    have hparam : Uses fn s₁ (.param f.id index name .real) := fun g hg => by
      obtain ⟨r, f', b, hat, rfl, hid, -⟩ := h₁.at
      cases hat.function.symm.trans hg
      exact hf.trans hid.symm
    refine (store_lays h₁ hslot hparam hty.symm).bind fun _ s₂ h₂ _ _ => ?_
    exact ih (index + 1) h₂

theorem verify_lays (hf : f.id = fn) (h : Laid fn framed [] s) :
    Lays fn (Laid fn framed []) (verify pos f) s fun _ t => t = s ∧
      ∀ g, s.module.function? fn = some g → g.Accepted := by
  obtain ⟨g, hg, hsane, hopen⟩ := h.function
  have hbody : g.hasBody = true := by
    obtain ⟨k, hk, hl⟩ : ∃ k, s.module.function? k = some g ∧ g.listed = true := by
      obtain ⟨c, hc, hid⟩ := h.ready.mem_created
      obtain ⟨g', hg', -, hl, -⟩ := h.ready.orderly.created c hc
      rw [hid] at hg'
      cases hg.symm.trans hg'
      exact ⟨fn, hg, hl⟩
    refine (h.ready.orderly.complete g (Module.mem_functions.mpr ⟨k, hk, hl⟩)).resolve_left ?_
    simp [hsane.code]
  have hend : ∀ b ∈ g.blocks, b.terminator?.isSome = true := fun b hb =>
    hopen.ended b hb List.not_mem_nil
  have hverify := hsane.verify hbody hend
  have hrun : verify pos f s = .ok () s := by
    simp only [verify, bind_run, get_run, hf, hg, Option.map_some, hverify]
    rfl
  refine .of_run hrun h (.refl fn s) ⟨rfl, fun g' hg' => ?_⟩
  cases hg.symm.trans hg'
  exact .code hsane hbody hend

def Unused (s : Lowering) (name : String) : Prop :=
  (∀ n, name = unitName n → n < s.nextUnit) ∧ ∀ n, name = funcName n → n < s.nextFunc

theorem Ahead.push (h : s.Ahead) {f : Function} (hl : f.listed = true) (hname : Unused s f.name)
    (p : Option BlockRef) : (s.push f p).Ahead := by
  intro r hr
  rw [show (s.push f p).module = { s.module with store := s.module.store.push f } from rfl,
    Module.refs_push hl] at hr
  rcases List.mem_append.mp hr with hr | hr
  · exact h r hr
  · obtain rfl := List.mem_singleton.mp hr
    exact hname

theorem sane_opened (id : Nat) (name : String) (params : List String) :
    (Function.opened id name params).Sane := by
  have hinstrs : ∀ b ∈ (Function.opened id name params).blocks, b.ref.fn = id ∧ b.instrs = [] := by
    intro b hb
    obtain rfl := List.mem_singleton.mp hb
    exact ⟨rfl, rfl⟩
  refine ⟨rfl, rfl, fun b hb => (hinstrs b hb).1, fun b hb i hi => ?_, fun b hb i hi => ?_, ?_⟩
  · rw [(hinstrs b hb).2] at hi
    cases hi
  · rw [(hinstrs b hb).2] at hi
    cases hi
  · intro s hs
    cases hs

theorem openAt_opened (id : Nat) (name : String) (params : List String) :
    (Function.opened id name params).OpenAt [⟨id, 0, "entry"⟩] := by
  refine ⟨List.nodup_singleton _, fun r hr => ?_, fun b hb hr => ?_⟩
  · obtain rfl := List.mem_singleton.mp hr
    exact ⟨{ ref := ⟨id, 0, "entry"⟩ }, by
      simp [Function.opened, Function.addBlock, Function.block?, Function.id], rfl⟩
  · obtain rfl := List.mem_singleton.mp hb
    exact absurd List.mem_cons_self hr

theorem site_opened (h : Laid fn framed P s)
    (hfree : s.module.find? name = none) (hname : Plain name → s.scopes.globals.lookup name = none)
    (hunused : Unused s name) : Site s.module.store.size true [] (s.opened name params) := by
  obtain ⟨hready, -⟩ := ready_opened h.ready.orderly (@Step.define _ _ params hfree hname)
  refine ⟨⟨s.module.store.size, 0, "entry"⟩, rfl, hready, ?_, ⟨h.housed.globals, ?_⟩, _,
    (function?_push ..).trans (if_pos rfl), sane_opened _ _ _, openAt_opened _ _ _⟩
  · exact Ahead.push (f := .opened s.module.store.size name params) h.ahead rfl hunused _
  · intro frame hframe x hx
    rcases List.mem_cons.mp hframe with rfl | hframe
    · cases hx
    · exact h.housed.locals frame hframe x hx

theorem inFunction_lays {body : Lower α}
    (hp : ∀ fn, Progress fn true body fun _ => True) (hbody : SureBody body)
    (h : Site fn framed P s) (hfree : s.module.find? name = none)
    (hname : Plain name → s.scopes.globals.lookup name = none) (hunused : Unused s name) :
    Lays fn (Site fn framed P) (inFunction pos name params body) s fun _ _ => True := by
  obtain ⟨r, hpoint, hlaid⟩ := id h
  obtain ⟨f₀, hf₀, hsane, hopen⟩ := hlaid.function
  have hgoes := @inFunction_goes params pos name _ _ _ _ _ hlaid.ready hname hp
  have hinner : Lays s.module.store.size (Laid s.module.store.size true [])
      (bindParams pos (Function.opened s.module.store.size name params).ref 0 params >>= fun _ =>
        body >>= fun _ => closeFunction >>= fun _ =>
          verify pos (Function.opened s.module.store.size name params).ref) (s.opened name params)
      fun _ t => ∀ g, t.module.function? s.module.store.size = some g → g.Accepted := by
    refine (bindParams_lays rfl 0 params (site_opened hlaid hfree hname hunused)).bind
      fun _ s₁ h₁ _ _ => ?_
    refine (hbody _ _ s₁ h₁).bind fun _ s₂ h₂ _ _ => ?_
    refine (closeFunction_lays h₂).bind fun _ s₃ h₃ _ _ => ?_
    exact (verify_lays rfl h₃).mono fun _ _ _ ⟨ht, hacc⟩ => ht ▸ hacc
  have hcur := (ready_opened hlaid.ready.orderly (@Step.define _ _ params hfree hname)).2
  unfold Lays
  cases hx : inFunction pos name params body s with
  | error e t =>
    unfold inFunction at hx
    rw [bind_run, get_run] at hx
    dsimp only at hx
    rw [bind_run, define_run hfree] at hx
    rcases bind_eq_error hx with hx | ⟨_, _, hdeepen, hx⟩
    · cases hx
    · obtain ⟨-, rfl⟩ := EStateM.Result.ok.inj hdeepen
      rcases bind_eq_error hx with hx | ⟨_, _, -, hx⟩
      · exact inFrame_error (s := { s.push (.opened s.module.store.size name params)
          (some ⟨s.module.store.size, 0, "entry"⟩) with depth := s.depth + 1 }) hcur hinner hx
      · rcases bind_eq_error hx with hx | ⟨_, _, -, hx⟩ <;> cases hx
  | ok f t =>
    obtain ⟨hsteps, hadv⟩ := hgoes.ok hx
    unfold inFunction at hx
    rw [bind_run, get_run] at hx
    dsimp only at hx
    rw [bind_run, define_run hfree] at hx
    obtain ⟨_, s₂, hdeepen, hx⟩ := bind_eq_ok hx
    obtain ⟨-, rfl⟩ := EStateM.Result.ok.inj hdeepen
    obtain ⟨_, s₃, hframe, hx⟩ := bind_eq_ok hx
    obtain ⟨_, s₄, hback, hx⟩ := bind_eq_ok hx
    cases hx
    obtain ⟨-, rfl⟩ := EStateM.Result.ok.inj hback
    obtain ⟨u, hbody', rfl⟩ := inFrame_run_eq_ok hcur hframe
    obtain ⟨hu, ho, hacc⟩ := hinner.ok hbody'
    have hlt : fn < s.module.store.size := lt_size_of_function? hf₀
    have hold : ∀ k g, s.module.function? k = some g → u.module.function? k = some g := by
      intro k g hg
      have hk : k ≠ s.module.store.size := Nat.ne_of_lt (lt_size_of_function? hg)
      refine ho.others k g hk ?_
      exact (function?_push ..).trans (by rw [if_neg hk, hg])
    have hscopes : u.scopes.leave = s.scopes := ho.scopes.leave
    refine ⟨⟨r, hpoint, hlaid.ready.advance hsteps hadv, hu.ahead, ?_, f₀, hold fn f₀ hf₀,
      hsane, hopen⟩,
      ⟨hadv, fun g hg => ⟨g, hold fn g hg, .refl g⟩, fun k g _ => hold k g, fun k g hk hn hg => ?_⟩,
      trivial⟩
    · change Housed { u with scopes := u.scopes.leave, depth := _, builder := _ }
      rw [hscopes]
      exact ⟨hlaid.housed.globals, hlaid.housed.locals⟩
    · by_cases hks : k = s.module.store.size
      · subst hks
        exact hacc g hg
      · exact ho.new k g hks ((function?_push ..).trans (by rw [if_neg hks, hn])) hg

theorem funcLit_sure {body : Lower α}
    (hp : ∀ fn, Progress fn true body fun _ => True) (hbody : SureBody body) :
    Gives framed (funcLit pos params body) fun _ => True := by
  intro fn P s h
  obtain ⟨r, hpoint, hlaid⟩ := id h
  unfold funcLit
  refine .bind_ok (a := s) rfl ?_
  have hcount : Site fn framed P { s with nextFunc := s.nextFunc + 1 } := by
    have hready := hlaid.ready.advance (.single .count) (t := { s with nextFunc := s.nextFunc + 1 })
      ⟨rfl, .refl _, rfl⟩
    refine ⟨r, hpoint, hready, fun c hc => ⟨(hlaid.ahead c hc).1, fun n hn => ?_⟩,
      ⟨hlaid.housed.globals, hlaid.housed.locals⟩, hlaid.function⟩
    exact Nat.lt_succ_of_lt ((hlaid.ahead c hc).2 n hn)
  refine Lays.bind (S := Site fn framed P)
    (Q := fun _ t => t = { s with nextFunc := s.nextFunc + 1 })
    (.of_run rfl hcount ⟨⟨rfl, .refl _, rfl⟩, fun g hg => ⟨g, hg, .refl g⟩, fun _ _ _ h => h,
      fun _ _ _ hn hg => by rw [show s.module.function? _ = _ from hg] at hn; cases hn⟩ rfl) ?_
  rintro - t ht - rfl
  have hfree : s.module.find? (funcName s.nextFunc) = none := by
    refine Module.find?_eq_none_iff.mpr fun c hc hn => ?_
    exact Nat.lt_irrefl _ ((hlaid.ahead c hc).2 _ hn)
  refine (inFunction_lays hp hbody ht hfree (fun h => absurd h (not_plain_funcName _))
    ⟨?_, ?_⟩).bind
    fun f s₂ h₂ _ _ => functionValue_sure f fn P s₂ h₂
  · exact fun n hn => absurd hn.symm (unitName_ne_funcName _ _)
  · exact fun n hn => funcName_injective hn ▸ Nat.lt_succ_self _

theorem unused_of_plain (h : Plain name) (s : Lowering) : Unused s name :=
  ⟨fun n hn => absurd (hn ▸ h) (not_plain_unitName n),
    fun n hn => absurd (hn ▸ h) (not_plain_funcName n)⟩

theorem funcDef_sure {body : Lower α}
    (hname : Plain name) (hp : ∀ fn, Progress fn true body fun _ => True) (hbody : SureBody body) :
    Gives framed (funcDef pos name params body) fun _ => True := by
  intro fn P s h
  unfold funcDef
  refine .bind_ok (a := s.scopes.lookup name) rfl ?_
  cases hvar : s.scopes.lookup name with
  | some slot => exact .reject_bind (.inl rfl)
  | none =>
    refine .bind_ok (a := s.module.find? name) rfl ?_
    cases hfun : s.module.find? name with
    | some f => exact .reject_bind (.inl rfl)
    | none =>
      refine (inFunction_lays hp hbody h hfun (fun _ => Scopes.globals_of_lookup hvar)
        (unused_of_plain hname s)).bind fun _ s₁ h₁ _ _ => ?_
      exact .pure h₁ ⟨uses_real fn s₁ 0, trivial⟩

theorem hostDecl_sure (hname : Plain name) :
    Gives framed (hostDecl pos name params) fun _ => True := by
  intro fn P s h
  obtain ⟨r, hpoint, hlaid⟩ := id h
  unfold hostDecl
  refine .bind_ok (a := s) rfl ?_
  split
  · have hhost : (name, params.length) ∈ s.hosts := by simpa using ‹s.hosts.contains _ = true›
    refine .bind_ok (a := s.scopes.lookup name) rfl ?_
    cases hvar : s.scopes.lookup name with
    | some slot => exact .reject_bind (.inl rfl)
    | none =>
      refine .bind_ok (a := s.module.find? name) rfl ?_
      cases hfun : s.module.find? name with
      | some f =>
        dsimp only
        split
        · exact .pure h ⟨uses_real fn s 0, trivial⟩
        · exact .reject (.inl rfl)
      | none =>
        obtain ⟨f₀, hf₀, hsane, hopen⟩ := hlaid.function
        have hadv : s.Advances (s.push (.host s.module.store.size name params) s.builder.point) :=
          ⟨rfl, .refl _, rfl⟩
        have hready := hlaid.ready.advance
          (.single (.host hfun (Scopes.globals_of_lookup hvar) hhost)) hadv
        have hold : ∀ k g, s.module.function? k = some g →
            (s.push (.host s.module.store.size name params) s.builder.point).module.function? k =
              some g := by
          intro k g hg
          exact (function?_push ..).trans
            (by rw [if_neg (Nat.ne_of_lt (lt_size_of_function? hg)), hg])
        refine Lays.bind (S := Site fn framed P) (Q := fun _ _ => True)
          (.of_run (declare_run_native hfun) ⟨r, hpoint, hready, ?_,
            ⟨hlaid.housed.globals, hlaid.housed.locals⟩, f₀, hold fn f₀ hf₀, hsane, hopen⟩
            ⟨hadv, fun g hg => ⟨g, hold fn g hg, .refl g⟩, fun k g _ => hold k g,
              fun k g _ hn hg => ?_⟩ trivial)
          fun _ s₁ h₁ _ _ => .pure h₁ ⟨uses_real fn s₁ 0, trivial⟩
        · exact Ahead.push (f := .host s.module.store.size name params) hlaid.ahead rfl
            (unused_of_plain hname s) _
        · rw [function?_push] at hg
          split at hg
          · cases hg
            exact .native rfl rfl rfl
          · rw [hn] at hg
            cases hg
  · exact .reject_bind (.inl rfl)

/-! ## Trees -/

theorem Gives.condition (h : Gives framed x fun _ => True) (pos : Position) :
    Gives framed (do Lower.condition pos (← x)) (· = .bool) := fun fn P s hs =>
  (h fn P s hs).bind fun _ _ h₁ _ ⟨hv, _⟩ => condition_lays h₁ hv

theorem Gives.requireReal (h : Gives framed x fun _ => True) (role : Role)
    (pos : Position) : Gives framed (do Lower.requireReal role pos (← x)) (· = .real) :=
  fun fn P s hs => (h fn P s hs).bind fun _ _ h₁ _ ⟨hv, _⟩ => requireReal_lays h₁ hv

theorem Gives.real (x : Float) : Gives framed (Pure.pure (.real x)) (· = .real) :=
  fun fn _ s h => .pure h ⟨uses_real fn s x, rfl⟩

abbrev GivesAll (framed : Bool) (x : Lower (List Operand)) (want : Ty → Prop) : Prop :=
  Sure framed x fun fn vs t => ∀ v ∈ vs, Uses fn t v ∧ want v.ty

theorem GivesAll.body {x : Lower (List Operand)} (h : GivesAll true x fun _ => True) : SureBody x :=
  fun fn P s hs => (h fn P s hs).mono fun _ _ _ _ => trivial

theorem GivesAll.cons {y : Lower (List Operand)} {want : Ty → Prop}
    (hx : Gives framed x want) (hy : GivesAll framed y want) :
    GivesAll framed (do return (← x) :: (← y)) want := by
  intro fn P s h
  refine (hx fn P s h).bind fun v s₁ h₁ _ ⟨hv, hty⟩ => ?_
  refine (hy fn P s₁ h₁).bind fun vs s₂ h₂ ho hvs => ?_
  refine .pure h₂ fun w hw => ?_
  rcases List.mem_cons.mp hw with rfl | hw
  · exact ⟨hv.onward h₁.ready ho, hty⟩
  · exact hvs w hw

theorem plainAll_of_shaped {level : Level} {ns : List Node} (h : Node.ShapedAll level ns) :
    Node.NamedAll Plain ns :=
  Node.ShapedAll.named (fun _ => IsName.plain) (fun _ => plain_of_mem_reservedNames) level ns h

mutual

theorem lower_sure (level : Level) (n : Node) (hn : n.Shaped level) (framed : Bool) :
    Gives framed (lower n) fun _ => True := by
  match n with
  | .number _ x => exact fun fn P s h => .pure h ⟨uses_real fn s x, trivial⟩
  | .ident pos name => exact readVariable_sure pos name
  | .unary _ op x =>
    intro fn P s h
    unfold lower
    refine (lower_sure .operand x hn.2 framed fn P s h).bind fun v s₁ h₁ _ ⟨hv, _⟩ => ?_
    exact (requireReal_lays h₁ hv).bind fun v s₂ h₂ _ ⟨hv, hty⟩ => unary_lays h₂ hv hty
  | .binary pos op l r =>
    intro fn P s h
    obtain ⟨hop, hl, hr⟩ := hn
    unfold lower
    split
    · split
      · refine (lower_sure .operand r hr framed fn P s h).bind fun v s₁ h₁ _ ⟨hv, _⟩ => ?_
        exact assign_lays (IsName.plain hl) h₁ hv
      · exact .reject (.inr (.inl rfl))
    · refine (lower_sure .operand l hl framed fn P s h).bind fun x s₁ h₁ _ ⟨hx, _⟩ => ?_
      refine (lower_sure .operand r hr framed fn P s₁ h₁).bind fun y s₂ h₂ ho ⟨hy, _⟩ => ?_
      exact binary_lays h₂ hop ‹_› (hx.onward h₁.ready ho) hy
  | .call pos builtin name args =>
    intro fn P s h
    have hargs : Node.ShapedAll .operand args := by cases builtin <;> exact hn.2
    unfold lower
    refine (callee_lays h pos builtin name).bind ?_
    rintro c _ - - ⟨rfl, hc⟩
    refine (lowerAll_sure .operand args hargs framed fn P _ h).bind fun vs s₁ h₁ _ hvs => ?_
    refine (checkArguments_lays h₁).bind ?_
    rintro ws _ - - ⟨rfl, rfl, htys⟩
    refine call_lays h₁ hc (fun x hx => ?_) htys
    obtain ⟨y, hy, rfl⟩ := List.mem_map.mp hx
    exact (hvs _ (List.of_mem_zip hy).2).1
  | .collection _ _ elements =>
    intro fn P s h
    unfold lower
    exact (lowerElements_sure elements hn.2 framed fn P s h).bind fun vs s₁ h₁ _ hvs =>
      collection_lays h₁ hvs
  | .conditional _ c body none =>
    unfold lower
    exact ifThen_sure ((lower_sure .operand c hn.2.1 framed).condition _)
      (lowerAll_sure .body body hn.2.2 true).body
  | .conditional _ c body (some otherwise) =>
    unfold lower
    exact ifElse_sure ((lower_sure .operand c hn.2.1 framed).condition _)
      (lowerAll_sure .body body hn.2.2.1 true).body
        (lowerAll_sure .body otherwise hn.2.2.2 true).body
  | .whileLoop _ c body =>
    unfold lower
    exact whileLoop_sure ((lower_sure .operand c hn.2.1 true).condition _)
      (lowerAll_sure .body body hn.2.2 true).body
  | .forLoop pos var start stop none body =>
    unfold lower
    exact forLoop_sure ((lower_sure .operand start hn.2.2.1 framed).requireReal _ _)
      (lowerAll_sure .body body hn.2.2.2.2 true).body (.real 1)
      ((lower_sure .operand stop hn.2.2.2.1 true).condition _)
  | .forLoop pos var start stop (some step) body =>
    unfold lower
    exact forLoop_sure ((lower_sure .operand start hn.2.2.1 framed).requireReal _ _)
      (lowerAll_sure .body body hn.2.2.2.2.2 true).body
      ((lower_sure .operand step hn.2.2.2.2.1 true).requireReal _ _)
      ((lower_sure .operand stop hn.2.2.2.1 true).condition _)
  | .funcLit pos params body =>
    unfold lower
    exact funcLit_sure (fun fn => lowerAll_progress body (plainAll_of_shaped hn.2) fn true)
      (lowerAll_sure .body body hn.2 true).body
  | .funcDef pos name params body =>
    unfold lower
    exact funcDef_sure (IsName.plain hn.2.1)
      (fun fn => lowerAll_progress body (plainAll_of_shaped hn.2.2.2) fn true)
      (lowerAll_sure .body body hn.2.2.2 true).body
  | .hostDecl pos name params =>
    unfold lower
    exact hostDecl_sure (IsName.plain hn.2.1)
  | .ret _ x =>
    unfold lower
    exact ret_sure (lower_sure .operand x hn.2 framed)

theorem lowerAll_sure (level : Level) (ns : List Node) (hn : Node.ShapedAll level ns)
    (framed : Bool) :
    GivesAll framed (lowerAll ns) fun _ => True := by
  match ns with
  | [] => exact fun fn P s h => .pure h (by simp)
  | n :: ns =>
    unfold lowerAll
    exact .cons (lower_sure level n hn.1 framed) (lowerAll_sure level ns hn.2 framed)

theorem lowerElements_sure (ns : List Node) (hn : Node.ShapedAll .operand ns) (framed : Bool) :
    GivesAll framed (lowerElements ns) (· = .real) := by
  match ns with
  | [] => exact fun fn P s h => .pure h (by simp)
  | n :: ns =>
    intro fn P s h
    unfold lowerElements
    dsimp only
    split
    · exact .reject_bind (.inr (.inl rfl))
    · simpa only [bind_assoc] using GivesAll.cons
        ((lower_sure .operand n hn.1 framed).requireReal _ _)
        (lowerElements_sure ns hn.2 framed) fn P s h

end

/-! ## Units -/

theorem unit_accepts (hs : s.Settled) (ha : s.Ahead) (hh : s.Housed) {p : Program}
    (hp : Node.ShapedAll .top p) {n : Nat} (hfree : s.module.find? (unitName n) = none)
    (hn : n < s.nextUnit) :
    (∀ e t, unit p (unitName n) s = .error e t → e.Blames) ∧
    ∀ f t, unit p (unitName n) s = .ok f t → t.Ahead ∧ t.Housed ∧
      (∀ k g, s.module.function? k = some g → t.module.function? k = some g) ∧
      ∀ k g, s.module.function? k = none → t.module.function? k = some g → g.Accepted := by
  let f := (Function.opened s.module.store.size (unitName n) []).ref
  let s₁ := s.push (.opened s.module.store.size (unitName n) [])
    (some ⟨s.module.store.size, 0, "entry"⟩)
  have hdefine : define {} (unitName n) [] s = .ok f s₁ := define_run hfree
  have hsite : Site s.module.store.size false [] s₁ := by
    have hstep := @Step.define s (unitName n) [] hfree fun h => absurd h (not_plain_unitName n)
    have hunused : Unused s (unitName n) :=
      ⟨fun m hm => unitName_injective hm ▸ hn, fun m hm => absurd hm (unitName_ne_funcName _ _)⟩
    refine ⟨⟨s.module.store.size, 0, "entry"⟩, rfl,
      ⟨hs.orderly.step hstep, rfl, ?_, fun _ => hs.depth,
      by simp⟩, Ahead.push (f := .opened s.module.store.size (unitName n) []) ha rfl hunused _,
      ⟨hh.globals, hh.locals⟩, _, (function?_push ..).trans (if_pos rfl), sane_opened _ _ _,
      openAt_opened _ _ _⟩
    simp [s₁, push, hs.inner]
  have hlays : Lays s.module.store.size (Laid s.module.store.size false [])
      (lowerAll p >>= fun _ => closeFunction >>= fun _ => verify {} f) s₁ fun _ t =>
        ∀ g, t.module.function? s.module.store.size = some g → g.Accepted := by
    refine (lowerAll_sure .top p hp false _ _ s₁ hsite).bind fun _ s₂ h₂ _ _ => ?_
    refine (closeFunction_lays h₂).bind fun _ s₃ h₃ _ _ => ?_
    exact (verify_lays rfl h₃).mono fun _ _ _ h => h.1 ▸ h.2
  have hunit : unit p (unitName n) s = ((lowerAll p >>= fun _ => closeFunction >>= fun _ =>
      verify {} f) >>= fun _ => build (.moveTo none) >>= fun _ => pure f) s₁ := by
    unfold unit
    rw [bind_run, hdefine]
    simp only [bind_assoc]
  rw [hunit]
  refine ⟨fun e t hx => ?_, fun f' t hx => ?_⟩
  · rcases bind_eq_error hx with hx | ⟨_, _, -, hx⟩
    · exact (hlays.error hx).1
    · cases hx
  · obtain ⟨_, u, hu, hx⟩ := bind_eq_ok hx
    obtain ⟨-, rfl⟩ := EStateM.Result.ok.inj hx
    obtain ⟨hlaid, ho, hacc⟩ := hlays.ok hu
    refine ⟨hlaid.ahead, ⟨hlaid.housed.globals, hlaid.housed.locals⟩, fun k g hg => ?_,
      fun k g hnone hg => ?_⟩
    · have hk : k ≠ s.module.store.size := Nat.ne_of_lt (lt_size_of_function? hg)
      exact ho.others k g hk ((function?_push ..).trans (by rw [if_neg hk, hg]))
    · by_cases hk : k = s.module.store.size
      · subst hk
        exact hacc g hg
      · exact ho.new k g hk ((function?_push ..).trans (by rw [if_neg hk, hnone])) hg

end RealScript.Lower
