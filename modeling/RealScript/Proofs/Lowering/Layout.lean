import RealScript.Proofs.Code.Accepted
import RealScript.Proofs.Lowering.Surveying

/-! # The layout of code that is being lowered

While a function is lowered some of its blocks are open: the one at the insertion point, and those
that were created to be entered later. All others have their ends, and every instruction so far is
one that verification accepts. Each step of building keeps this, and none of them fails.
-/

namespace RealScript

variable {b : Block} {c : BlockRef} {pos : Position}

/-! ## Open blocks -/

structure Function.OpenAt (f : Function) (P : List BlockRef) : Prop where
  nodup : P.Nodup
  open_ : ∀ r ∈ P, ∃ b, f.block? r = some b ∧ b.terminator? = none
  ended : ∀ b ∈ f.blocks, b.ref ∉ P → b.terminator?.isSome = true

namespace Function.OpenAt

variable {f : Function} {r : BlockRef} {P P' : List BlockRef} {d : Draft}

theorem perm (h : f.OpenAt P) (hp : P.Perm P') : f.OpenAt P' where
  nodup := hp.nodup h.nodup
  open_ c hc := h.open_ c (hp.mem_iff.mpr hc)
  ended b hb hr := h.ended b hb fun hc => hr (hp.mem_iff.mp hc)

theorem addSlot (h : f.OpenAt P) (name : String) (ty : Ty) : (f.addSlot name ty).2.OpenAt P :=
  ⟨h.nodup, h.open_, h.ended⟩

theorem addBlock (h : f.OpenAt P) (ht : f.Tidy) (name : String) :
    (f.addBlock name).2.OpenAt ((f.addBlock name).1 :: P) where
  nodup := by
    refine List.nodup_cons.mpr ⟨fun hc => ?_, h.nodup⟩
    obtain ⟨b, hb, -⟩ := h.open_ _ hc
    rw [block?_addBlock_self ht name] at hb
    cases hb
  open_ c hc := by
    rw [block?_addBlock ht]
    split
    · exact ⟨_, rfl, rfl⟩
    · exact h.open_ c (List.mem_of_ne_of_mem ‹_› hc)
  ended b hb hr := by
    rcases List.mem_append.mp hb with hb | hb
    · exact h.ended b hb fun hc => hr (List.mem_cons_of_mem _ hc)
    · obtain rfl := List.mem_singleton.mp hb
      exact absurd List.mem_cons_self hr

theorem mem_blocks_emit (hb : b ∈ (f.emit r d).2.blocks) :
    ∃ c ∈ f.blocks, c.ref = b.ref ∧ b = if b.ref = r then c.push (f.nextInstr r d) else c := by
  obtain ⟨c, hc, rfl⟩ := List.mem_map.mp hb
  by_cases hr : c.ref = r
  · exact ⟨c, hc, by simp [hr, Block.push], by simp [hr, Block.push]; rfl⟩
  · exact ⟨c, hc, by simp [hr], by simp [hr]⟩

theorem isTerminator_nextInstr (f : Function) (r : BlockRef) (d : Draft) :
    (f.nextInstr r d).isTerminator = d.op.isTerminator := rfl

theorem emit (h : f.OpenAt (r :: P)) (hd : d.op.isTerminator = false) :
    (f.emit r d).2.OpenAt (r :: P) where
  nodup := h.nodup
  open_ c hc := by
    obtain ⟨b, hb, ho⟩ := h.open_ c hc
    rw [block?_emit]
    split
    · refine ⟨_, by rw [hb]; rfl, ?_⟩
      rw [Block.terminator?_push, isTerminator_nextInstr, hd]
      rfl
    · exact ⟨b, hb, ho⟩
  ended b hb hr := by
    obtain ⟨c, hc, href, he⟩ := mem_blocks_emit hb
    have hbr : b.ref ≠ r := fun hbr => hr (hbr ▸ List.mem_cons_self)
    rw [if_neg hbr] at he
    exact he ▸ h.ended c hc (href ▸ hr)

theorem close (h : f.OpenAt (r :: P)) (hd : d.op.isTerminator = true) :
    (f.emit r d).2.OpenAt P where
  nodup := (List.nodup_cons.mp h.nodup).2
  open_ c hc := by
    obtain ⟨b, hb, ho⟩ := h.open_ c (List.mem_cons_of_mem _ hc)
    have hcr : c ≠ r := fun hcr => (List.nodup_cons.mp h.nodup).1 (hcr ▸ hc)
    rw [block?_emit, if_neg hcr]
    exact ⟨b, hb, ho⟩
  ended b hb hr := by
    obtain ⟨c, hc, href, he⟩ := mem_blocks_emit hb
    by_cases hbr : b.ref = r
    · rw [if_pos hbr] at he
      rw [he, Block.terminator?_push, isTerminator_nextInstr, hd]
      rfl
    · rw [if_neg hbr] at he
      refine he ▸ h.ended c hc ?_
      rw [href]
      exact List.not_mem_cons_of_ne_of_not_mem hbr hr

end Function.OpenAt

inductive Function.Accepted (f : Function) : Prop where
  | native : f.native = true → f.slots = [] → f.blocks = [] → Accepted f
  | code : f.Sane → f.hasBody = true → (∀ b ∈ f.blocks, b.terminator?.isSome = true) → Accepted f

theorem Function.Accepted.slots {f : Function} (h : f.Accepted) : ∀ s ∈ f.slots, s.ty ≠ .void := by
  cases h with
  | native _ hs _ => simp [hs]
  | code h => exact h.slots

/-- Code that verification accepts, and what this makes sure of: a block ends with its only
terminator, operands have the right types, and all that is used belongs to the function. -/
structure Function.Verified (f : Function) : Prop where
  accepted : f.verify = .ok ()
  closed : ∀ b ∈ f.blocks, b.Closed
  typed : ∀ i ∈ code f.blocks, i.toOperation.Typed f.ref.ret
  owned : ∀ i ∈ code f.blocks, i.toOperation.Owned f

theorem Function.Accepted.verified {f : Function} (h : f.Accepted) :
    f.native = true ∨ f.Verified := by
  cases h with
  | native hn _ _ => exact .inl hn
  | code h hbody hend =>
    have hv := h.verify hbody hend
    refine .inr ⟨hv, fun b hb => (block_of_verify h.code hv hb).2.1, fun i hi => ?_, fun i hi => ?_⟩
    · obtain ⟨b, hb, hib⟩ := mem_code.mp hi
      rw [h.ret]
      exact (h.instr b hb i hib).2.1
    · obtain ⟨b, hb, hib⟩ := mem_code.mp hi
      exact (h.instr b hb i hib).2.2

namespace Lowering

def Ahead (s : Lowering) : Prop :=
  ∀ r ∈ s.module.refs, (∀ n, r.name = unitName n → n < s.nextUnit) ∧
    ∀ n, r.name = funcName n → n < s.nextFunc

/-- Names stand for slots of the session, or of the function whose frame they are in. -/
structure Housed (s : Lowering) : Prop where
  globals : ∀ x ∈ s.scopes.globals, x.2.isGlobal = true ∧ x.2.ty ≠ .void
  locals : ∀ frame ∈ s.scopes.inner, ∀ x ∈ frame.vars,
    x.2.home = .activation frame.owner.id ∧ x.2.ty ≠ .void

/-- A state in which the function `fn` is being lowered and its blocks `P` are open. -/
structure Laid (fn : Nat) (framed : Bool) (P : List BlockRef) (s : Lowering) : Prop where
  ready : s.Ready fn framed
  ahead : s.Ahead
  housed : s.Housed
  function : ∃ f, s.module.function? fn = some f ∧ f.Sane ∧ f.OpenAt P

/-- A state in which lowering goes on in an open block, and the blocks `P` are open besides. -/
def Site (fn : Nat) (framed : Bool) (P : List BlockRef) (s : Lowering) : Prop :=
  ∃ r, s.builder.point = some r ∧ Laid fn framed (r :: P) s

/-- How a state comes out of another in the function `own`: all other functions are as they were,
and new ones are finished. -/
structure Onward (own : Nat) (s t : Lowering) : Prop extends s.Advances t where
  grows : ∀ f, s.module.function? own = some f → ∃ g, t.module.function? own = some g ∧ f.Grows g
  others : ∀ k f, k ≠ own → s.module.function? k = some f → t.module.function? k = some f
  new : ∀ k f, k ≠ own → s.module.function? k = none → t.module.function? k = some f → f.Accepted

def Has (fn : Nat) (s : Lowering) (c : BlockRef) : Prop :=
  c.fn = fn ∧ ∀ f, s.module.function? fn = some f → c ∈ f.blocks.map (·.ref)

def Uses (fn : Nat) (s : Lowering) (x : Operand) : Prop :=
  ∀ f, s.module.function? fn = some f → x.Owned f

variable {fn : Nat} {framed : Bool} {P P' : List BlockRef} {s t u : Lowering} {x : Operand}

theorem Onward.refl (fn : Nat) (s : Lowering) : Onward fn s s :=
  { Advances.refl s with
    grows := fun f hf => ⟨f, hf, .refl f⟩
    others := fun _ _ _ h => h
    new := fun _ _ _ hn hf => by rw [hn] at hf; cases hf }

theorem Onward.trans (h : Onward fn s t) (h' : Onward fn t u) : Onward fn s u :=
  { h.toAdvances.trans h'.toAdvances with
    grows := fun f hf => by
      obtain ⟨g, hg, hfg⟩ := h.grows f hf
      obtain ⟨k, hk, hgk⟩ := h'.grows g hg
      exact ⟨k, hk, hfg.trans hgk⟩
    others := fun k f hk hf => h'.others k f hk (h.others k f hk hf)
    new := fun k f hk hn hf => by
      cases ht : t.module.function? k with
      | none => exact h'.new k f hk ht hf
      | some g =>
        obtain rfl := Option.some.inj ((h'.others k g hk ht).symm.trans hf)
        exact h.new k g hk hn ht }

theorem Laid.perm (h : Laid fn framed P s) (hp : P.Perm P') : Laid fn framed P' s := by
  obtain ⟨f, hf, hsane, hopen⟩ := h.function
  exact ⟨h.ready, h.ahead, h.housed, f, hf, hsane, hopen.perm hp⟩

theorem Laid.tidy (h : Laid fn framed P s) {f : Function} (hf : s.module.function? fn = some f) :
    f.id = fn ∧ f.Tidy := by
  obtain ⟨r, hr, rfl⟩ := Option.map_eq_some_iff.mp h.ready.inside
  obtain ⟨g, hg, hid, ht⟩ := h.ready.orderly.function_of_point hr
  cases hg.symm.trans hf
  exact ⟨hid, ht⟩

theorem Uses.onward (h : Uses fn s x) (hs : s.Ready fn framed) (ho : Onward fn s t) :
    Uses fn t x := by
  intro g hg
  obtain ⟨f, -, hf, -⟩ := hs.function
  obtain ⟨g', hg', hgrow⟩ := ho.grows f hf
  cases hg'.symm.trans hg
  exact (h f hf).grows hgrow

theorem Has.onward (h : Has fn s c) (hs : s.Ready fn framed) (ho : Onward fn s t) : Has fn t c := by
  refine ⟨h.1, fun g hg => ?_⟩
  obtain ⟨f, -, hf, -⟩ := hs.function
  obtain ⟨g', hg', hgrow⟩ := ho.grows f hf
  cases hg'.symm.trans hg
  exact hgrow.blocks.refs (h.2 f hf)

theorem Laid.lookup (h : Laid fn framed P s) {name : String} {slot : Slot}
    (hslot : s.scopes.lookup name = some slot) : slot.Owned fn ∧ slot.ty ≠ .void := by
  rcases h.ready.lookup hslot with hg | ⟨frame, hframe, howner, hx⟩
  · exact (h.housed.globals _ (mem_of_lookup hg)).imp_left .inl
  · obtain ⟨hhome, hty⟩ := h.housed.locals frame hframe _ (mem_of_lookup hx)
    exact ⟨.inr (howner ▸ hhome), hty⟩

theorem refs_withFunction {f g : Function} (hf : s.module.function? fn = some f) (hg : f.Grows g) :
    (s.withFunction fn g).module.refs = s.module.refs :=
  (Module.growsIn_modify hf hg).refs

theorem Laid.withFunction (h : Laid fn framed P s) {f g : Function}
    (hf : s.module.function? fn = some f) (hg : f.Grows g) (hsane : g.Sane) (hopen : g.OpenAt P')
    (hr : (s.withFunction fn g).Ready fn framed) : Laid fn framed P' (s.withFunction fn g) where
  ready := hr
  ahead r hr := by
    rw [refs_withFunction hf hg] at hr
    exact h.ahead r hr
  housed := ⟨h.housed.globals, h.housed.locals⟩
  function := ⟨g, by rw [function?_withFunction hf, if_pos rfl], hsane, hopen⟩

theorem onward_withFunction {f g : Function} (hf : s.module.function? fn = some f)
    (hg : f.Grows g) :
    Onward fn s (s.withFunction fn g) where
  fn := rfl
  scopes := .refl _
  depth := rfl
  grows f' hf' := by
    cases hf.symm.trans hf'
    exact ⟨g, by rw [function?_withFunction hf, if_pos rfl], hg⟩
  others k f' hk hf' := by rw [function?_withFunction hf, if_neg hk, hf']
  new k f' hk hn hf' := by
    rw [function?_withFunction hf, if_neg hk, hn] at hf'
    cases hf'

theorem At.open_of_ref {r : BlockRef} {f : Function} (hs : s.At r f b) (ht : f.Tidy) :
    ∀ c ∈ f.blocks, c.ref = r → c.terminator? = none := by
  rintro c hc rfl
  cases (Function.block?_eq_some ht hc).symm.trans hs.block
  exact hs.open_

theorem Site.at (h : Site fn framed P s) : ∃ r f b, s.At r f b ∧ r.fn = fn ∧ f.id = fn ∧ f.Tidy ∧
    f.Sane ∧ f.OpenAt (r :: P) ∧ Laid fn framed (r :: P) s := by
  obtain ⟨r, hr, h⟩ := h
  obtain ⟨f, hf, hsane, hopen⟩ := h.function
  obtain ⟨hid, ht⟩ := h.tidy hf
  obtain ⟨b, hb, ho⟩ := hopen.open_ r List.mem_cons_self
  have hfn : r.fn = fn := by simpa [fn?, hr] using h.ready.inside
  exact ⟨r, f, b, ⟨hr, by rw [hfn]; exact hf, hb, ho⟩, hfn, hid, ht, hsane, hopen, h⟩

theorem Site.ready (h : Site fn framed P s) : s.Ready fn framed := by
  obtain ⟨r, -, h⟩ := h
  exact h.ready

theorem Laid.moveTo (Q : List BlockRef) (h : Laid fn framed (Q ++ c :: P) s)
    (hr : (s.goTo (some c)).Ready fn framed) : Site fn framed (Q ++ P) (s.goTo (some c)) := by
  have h := h.perm List.perm_middle
  exact ⟨c, rfl, hr, h.ahead, ⟨h.housed.globals, h.housed.locals⟩, h.function⟩

end Lowering

/-- A failure that the program is to blame for: a name, a type or a number of arguments. -/
def LowerFailure.Blames : LowerFailure → Prop
  | .diagnostic d => d.kind = .name ∨ d.kind = .type ∨ d.kind = .arity
  | .misuse _ => False

namespace Lower

open Stateful Lowering

variable {α β : Type} {fn : Nat} {framed : Bool} {P : List BlockRef} {s t : Lowering}

/-- In the function `fn`, a computation ends in a state of a kind, or the program is to blame. All
frames that were open still are then. -/
def Lays (fn : Nat) (S : Lowering → Prop) (x : Lower α) (s : Lowering) (Q : α → Lowering → Prop) :
    Prop :=
  match x s with
  | .ok a t => S t ∧ Onward fn s t ∧ Q a t
  | .error e t => e.Blames ∧ s.scopes.inner.length ≤ t.scopes.inner.length

namespace Lays

variable {S S' : Lowering → Prop} {x : Lower α} {f : α → Lower β} {Q Q' : α → Lowering → Prop}
  {R : β → Lowering → Prop}

theorem of_run {a : α} (hx : x s = .ok a t) (hs : S t) (ho : Onward fn s t) (hq : Q a t) :
    Lays fn S x s Q := by
  unfold Lays
  rw [hx]
  exact ⟨hs, ho, hq⟩

theorem ok (h : Lays fn S x s Q) {a : α} (hx : x s = .ok a t) : S t ∧ Onward fn s t ∧ Q a t := by
  unfold Lays at h
  rwa [hx] at h

theorem error (h : Lays fn S x s Q) {e : LowerFailure} (hx : x s = .error e t) :
    e.Blames ∧ s.scopes.inner.length ≤ t.scopes.inner.length := by
  unfold Lays at h
  rwa [hx] at h

theorem mono (h : Lays fn S x s Q) (hq : ∀ a t, S t → Q a t → Q' a t) : Lays fn S x s Q' := by
  unfold Lays at h ⊢
  cases hx : x s with
  | ok a t =>
    rw [hx] at h
    exact ⟨h.1, h.2.1, hq a t h.1 h.2.2⟩
  | error e t =>
    rw [hx] at h
    exact h

theorem bind (hx : Lays fn S x s Q)
    (hf : ∀ a t, S t → Onward fn s t → Q a t → Lays fn S' (f a) t R) :
    Lays fn S' (x >>= f) s R := by
  unfold Lays at hx ⊢
  rw [bind_run]
  cases hr : x s with
  | error e t =>
    rw [hr] at hx
    exact hx
  | ok a t =>
    rw [hr] at hx
    obtain ⟨hs, ho, hq⟩ := hx
    have hrest := hf a t hs ho hq
    unfold Lays at hrest
    dsimp only
    cases hr' : f a t with
    | error e u =>
      rw [hr'] at hrest
      exact ⟨hrest.1, ho.scopes.length_inner ▸ hrest.2⟩
    | ok b u =>
      rw [hr'] at hrest
      exact ⟨hrest.1, ho.trans hrest.2.1, hrest.2.2⟩

theorem pure {a : α} (hs : S s) (hq : Q a s) : Lays fn S (pure a) s Q :=
  of_run rfl hs (.refl fn s) hq

theorem reject {cause : Cause} (h : cause.kind = .name ∨ cause.kind = .type ∨ cause.kind = .arity) :
    Lays fn S (reject pos cause) s Q := ⟨h, Nat.le_refl _⟩

theorem reject_bind {cause : Cause}
    (h : cause.kind = .name ∨ cause.kind = .type ∨ cause.kind = .arity) :
    Lays fn S ((Lower.reject pos cause : Lower α) >>= f) s R := ⟨h, Nat.le_refl _⟩

theorem bind_ok {a : α} (hx : x s = .ok a s) (h : Lays fn S (f a) s R) :
    Lays fn S (x >>= f) s R := by
  unfold Lays at h ⊢
  rw [bind_run, hx]
  exact h

end Lays

/-! ## Building -/

theorem emit_run {r : BlockRef} {f : Function} (hs : s.At r f b) (hid : f.id = r.fn)
    (d : Draft) : build (.emit d) s = .ok (.result (f.emit r d).1)
      (s.withFunction r.fn (f.emit r d).2) := by
  have hf : s.builder.function? = some f := by
    rw [Builder.function?, hs.point]
    exact hs.function
  have hrun : Build.emit d s.builder = .ok (.result (f.emit r d).1)
      { s.builder with module := s.builder.module.modify r.fn fun _ => (f.emit r d).2 } := by
    rw [← hid]
    simp only [Build.emit, bind_run, get_run, hs.point, hs.not_terminated, Bool.false_eq_true,
      if_false, hf, set_run, pure_run]
    rfl
  rw [build_run hrun]
  rfl

theorem emit_lays {d : Draft} (ho : Build.Offered (.emit d)) (hd : d.op.isTerminator = false)
    (h : Site fn framed P s) (htyped : d.toOperation.Typed .real)
    (howned : ∀ f, s.module.function? fn = some f → d.toOperation.Owned f) :
    Lays fn (Site fn framed P) (build (.emit d)) s fun x t => Uses fn t x ∧ x.ty = d.ty := by
  obtain ⟨r, f, b, hat, rfl, hid, ht, hsane, hopen, hlaid⟩ := h.at
  have hrun := emit_run hat hid d
  obtain ⟨hsteps, hadv, -⟩ := (build_progress ho s hlaid.ready).ok hrun
  have hgrows := hat.grows_emit ht d
  have hsane' := hsane.emit hgrows (hat.open_of_ref ht) htyped (howned f hat.function)
  refine .of_run hrun ⟨r, hat.point, ?_⟩ (onward_withFunction hat.function hgrows) ⟨?_, rfl⟩
  · exact hlaid.withFunction hat.function hgrows hsane' (hopen.emit hd)
      (hlaid.ready.advance hsteps hadv)
  · intro g hg
    rw [function?_withFunction hat.function, if_pos rfl] at hg
    cases hg
    have hmem : b.push (f.nextInstr r d) ∈ (f.emit r d).2.blocks :=
      Function.mem_of_block? (r := r) (by rw [Function.block?_emit, if_pos rfl, hat.block]; rfl)
    exact ⟨f.nextInstr r d, mem_code.mpr ⟨_, hmem, by simp [Block.push]⟩, rfl⟩

theorem close_lays {d : Draft} (ho : Build.Offered (.emit d)) (hd : d.op.isTerminator = true)
    (h : Site fn framed P s) (htyped : d.toOperation.Typed .real)
    (howned : ∀ f, s.module.function? fn = some f → d.toOperation.Owned f) :
    Lays fn (Laid fn framed P) (build (.emit d)) s fun _ _ => True := by
  obtain ⟨r, f, b, hat, rfl, hid, ht, hsane, hopen, hlaid⟩ := h.at
  have hrun := emit_run hat hid d
  obtain ⟨hsteps, hadv, -⟩ := (build_progress ho s hlaid.ready).ok hrun
  have hgrows := hat.grows_emit ht d
  have hsane' := hsane.emit hgrows (hat.open_of_ref ht) htyped (howned f hat.function)
  exact .of_run hrun (hlaid.withFunction hat.function hgrows hsane' (hopen.close hd)
    (hlaid.ready.advance hsteps hadv)) (onward_withFunction hat.function hgrows) trivial

theorem createBlock_laid (h : Laid fn framed P s) (name : String) :
    Lays fn (fun t => t.builder.point = s.builder.point) (build (.createBlock name)) s fun c t =>
      Laid fn framed (c :: P) t ∧ Has fn t c := by
  obtain ⟨f, hbf, hf, hid⟩ := h.ready.function
  obtain ⟨f', hf', hsane, hopen⟩ := h.function
  cases hf.symm.trans hf'
  have hrun : build (.createBlock name) s = .ok (f.addBlock name).1
      (s.withFunction fn (f.addBlock name).2) := by
    refine build_run (b := { s.builder with
      module := s.builder.module.modify fn fun _ => (f.addBlock name).2 }) ?_
    rw [← hid]
    simp only [Build.createBlock, bind_run, get_run, hbf, set_run, pure_run]
    rfl
  obtain ⟨hsteps, hadv, -⟩ := (build_progress (.createBlock name) s h.ready).ok hrun
  have hgrows := f.grows_addBlock name
  refine .of_run hrun rfl (onward_withFunction hf hgrows) ⟨?_, hid, fun g hg => ?_⟩
  · exact h.withFunction hf hgrows (hsane.addBlock name) (hopen.addBlock (h.tidy hf).2 name)
      (h.ready.advance hsteps hadv)
  · rw [function?_withFunction hf, if_pos rfl] at hg
    cases hg
    simp [Function.addBlock]

theorem createBlock_lays (h : Site fn framed P s) (name : String) :
    Lays fn (fun _ => True) (build (.createBlock name)) s fun c t => Site fn framed (c :: P) t ∧
      Has fn t c := by
  obtain ⟨r, hr, h⟩ := h
  have := createBlock_laid h name
  unfold Lays at this ⊢
  split at this
  · exact ⟨trivial, this.2.1, ⟨r, this.1.trans hr, this.2.2.1.perm (.swap _ _ _)⟩, this.2.2.2⟩
  · exact this

theorem allocate_lays (h : Site fn framed P s) (name : String) {ty : Ty} (hty : ty ≠ .void) :
    Lays fn (Site fn framed P) (build (.allocate name ty)) s fun slot _ =>
      slot.Owned fn ∧ slot.ty = ty := by
  obtain ⟨r, f, b, hat, rfl, hid, ht, hsane, hopen, hlaid⟩ := h.at
  have hf : s.builder.function? = some f := by
    rw [Builder.function?, hat.point]
    exact hat.function
  have hrun : build (.allocate name ty) s = .ok (f.addSlot name ty).1
      (s.withFunction r.fn (f.addSlot name ty).2) := by
    refine build_run (b := { s.builder with
      module := s.builder.module.modify r.fn fun _ => (f.addSlot name ty).2 }) ?_
    rw [← hid]
    simp only [Build.allocate, bind_run, get_run, hf, set_run, pure_run]
    rfl
  obtain ⟨hsteps, hadv, -⟩ := (build_progress (.allocate name ty) s hlaid.ready).ok hrun
  have hgrows := f.grows_addSlot name ty
  refine .of_run hrun ⟨r, hat.point, ?_⟩ (onward_withFunction hat.function hgrows)
    ⟨.inr (congrArg Home.activation hid), rfl⟩
  exact hlaid.withFunction hat.function hgrows (hsane.addSlot name hty) (hopen.addSlot name ty)
    (hlaid.ready.advance hsteps hadv)

theorem moveTo_lays (Q : List BlockRef) (hc : Has fn s c) (h : Laid fn framed (Q ++ c :: P) s) :
    Lays fn (Site fn framed (Q ++ P)) (build (.moveTo (some c))) s fun _ _ => True := by
  have hrun : build (.moveTo (some c)) s = .ok () (s.goTo (some c)) := rfl
  obtain ⟨hsteps, hadv, -⟩ := (moveTo_progress hc.1 s h.ready).ok hrun
  refine .of_run hrun (h.moveTo Q (h.ready.advance hsteps hadv)) ?_ trivial
  exact { hadv with
    grows := fun f hf => ⟨f, hf, .refl f⟩
    others := fun _ _ _ h => h
    new := fun _ _ _ hn hf => by rw [show s.module.function? _ = _ from hf] at hn; cases hn }

theorem newVariable_lays (h : Site fn framed P s) {name : String} {ty : Ty}
    {duplicate : Cause} (hty : ty ≠ .void) (hkind : duplicate.kind = .name)
    (htop : s.scopes.inner = [] → Plain name ∧ s.scopes.globals.lookup name = none ∧
      s.module.find? name = none) :
    Lays fn (Site fn framed P) (newVariable pos name ty duplicate) s fun slot _ =>
      slot.Owned fn ∧ slot.ty = ty := by
  obtain ⟨r, f, b, hat, rfl, hid, ht, hsane, hopen, hlaid⟩ := h.at
  have hgoes := @newVariable_goes duplicate pos name ty _ _ _ hlaid.ready htop
  cases hinner : s.scopes.inner with
  | nil =>
    have hrun := @newVariable_run_top duplicate pos name ty _ hinner (htop hinner).2.1
    obtain ⟨hsteps, hadv⟩ := hgoes.ok hrun
    refine .of_run hrun ⟨r, hat.point, hlaid.ready.advance hsteps hadv, hlaid.ahead, ⟨?_, ?_⟩,
      f, hat.function, hsane, hopen⟩ ?_ ⟨.inl rfl, rfl⟩
    · intro x hx
      rcases List.mem_append.mp hx with hx | hx
      · exact hlaid.housed.globals x hx
      · obtain rfl := List.mem_singleton.mp hx
        exact ⟨rfl, hty⟩
    · exact hlaid.housed.locals
    · exact { hadv with
        grows := fun g hg => ⟨g, hg, .refl g⟩
        others := fun _ _ _ h => h
        new := fun _ _ _ hn hf => by rw [show s.module.function? _ = _ from hf] at hn; cases hn }
  | cons frame outer =>
    have hf : s.builder.function? = some f := by
      rw [Builder.function?, hat.point]
      exact hat.function
    have hrun := @newVariable_run_inner duplicate pos name ty _ _ _ _ hinner hf
    cases hname : frame.vars.lookup name with
    | some slot =>
      rw [hname] at hrun
      unfold Lays
      rw [hrun]
      exact ⟨.inl hkind, Nat.le_refl _⟩
    | none =>
      rw [hname] at hrun
      simp only [Option.isSome_none, Bool.false_eq_true, if_false] at hrun
      obtain ⟨hsteps, hadv⟩ := hgoes.ok hrun
      have hgrows := f.grows_addSlot name ty
      have hwith := onward_withFunction hat.function hgrows
      rw [← hid] at hwith
      have howner : frame.owner.id = r.fn := hlaid.ready.owner frame (by rw [hinner]; rfl)
      refine .of_run hrun ⟨r, hat.point, hlaid.ready.advance hsteps hadv, ?_,
        ⟨hlaid.housed.globals, ?_⟩,
        (f.addSlot name ty).2, ?_, hsane.addSlot name hty, hopen.addSlot name ty⟩ ?_
        ⟨.inr (congrArg Home.activation hid), rfl⟩
      · intro c hc
        have hrefs := refs_withFunction hat.function hgrows
        rw [← hid] at hrefs
        exact hlaid.ahead c (hrefs ▸ hc)
      · intro frame' hframe' x hx
        rcases List.mem_cons.mp hframe' with rfl | hframe'
        · rcases List.mem_append.mp hx with hx | hx
          · exact hlaid.housed.locals frame (by rw [hinner]; exact List.mem_cons_self) x hx
          · obtain rfl := List.mem_singleton.mp hx
            exact ⟨congrArg Home.activation (hid.trans howner.symm), hty⟩
        · exact hlaid.housed.locals frame'
            (by rw [hinner]; exact List.mem_cons_of_mem _ hframe') x hx
      · have := function?_withFunction (g := (f.addSlot name ty).2) hat.function r.fn
        rw [if_pos rfl, ← hid] at this
        rw [← hid]
        exact this
      · exact { hadv with
          grows := hid ▸ hwith.grows
          others := hid ▸ hwith.others
          new := hid ▸ hwith.new }

end Lower

end RealScript
