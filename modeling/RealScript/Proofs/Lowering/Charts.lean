import RealScript.Proofs.Code.Typed
import RealScript.Proofs.Lowering.Blocks
import RealScript.Proofs.Tree.Grammar

/-! # Charts of code

A chart says of every block what has been done on each way to it: which results are there and which
slots were stored to. Code is charted if each instruction finds what it needs. All is known of a
block that nothing leads to, and a block that is still empty may lose facts, so a chart can be kept
up while code is being lowered.
-/

namespace RealScript

/-- Something that was done on the way: a result was computed, or a slot was stored to. -/
inductive Fact where
  | result (r : ResultRef)
  | stored (home : Home) (index : Nat)
  deriving DecidableEq

def Slot.fact (s : Slot) : Fact := .stored s.home s.index

/-- What an operation of the function `fn` needs. A function may read the globals that were there
when it was declared, and so may the functions that it refers to. -/
inductive Operation.Needs (reach : Nat → Nat) (fn : Nat) (o : Operation) : Fact → Prop where
  | result {r : ResultRef} : .result r ∈ o.args → Needs reach fn o (.result r)
  | slot {s : Slot} : o.op = .load → o.slot = some s → (s.home = .module → reach fn ≤ s.index) →
      Needs reach fn o s.fact
  | function {f : FuncRef} {k : Nat} : f ∈ o.refs → reach fn ≤ k → k < reach f.id →
      Needs reach fn o (.stored .module k)

theorem Operation.Needs.mem_args {reach : Nat → Nat} {fn : Nat} {o : Operation} {r : ResultRef}
    (h : o.Needs reach fn (.result r)) : .result r ∈ o.args := by
  generalize hφ : Fact.result r = φ at h
  cases h with
  | result hr => exact Fact.result.inj hφ ▸ hr
  | slot | function => cases hφ

/-- What an instruction adds. The end of a block has a reference too, but no result to read. -/
def Instr.facts (i : Instr) : List Fact := (if i.isTerminator then [] else [.result i.ref]) ++
    if i.op = .store then (i.slot.map Slot.fact).toList else []

def Nameable (name : String) : Prop := IsName name ∨ ∃ n, name = Lowering.funcName n

/-- A function that code may refer to: it is there, and it is none of the entries. -/
def Module.Offers (m : Module) (r : FuncRef) : Prop :=
  (∃ f, m.function? r.id = some f ∧ f.ref = r) ∧ ∀ n, r.name ≠ Lowering.unitName n

structure Operation.Legal (m : Module) (f : Function) (o : Operation) : Prop where
  slot : ∀ s, o.slot = some s → s.home = .module ∧ m.globals[s.index]? = some s ∨
    s.home = .activation f.id ∧ f.slots[s.index]? = some s
  store : ∀ s, o.slot = some s → o.op = .store → s.home = .module →
    ∃ n, f.name = Lowering.unitName n
  refs : ∀ r ∈ o.refs, m.Offers r
  value : ∀ r, .func r ∈ o.args → Nameable r.name
  params : ∀ k index name ty, .param k index name ty ∈ o.args → f.ref.params[index]? = some ty

structure Instr.Legal (m : Module) (f : Function) (i : Instr) : Prop
    extends i.toOperation.Legal m f where
  type : i.ref.ty = i.toOperation.resultTy
  register : i.ref.register = none ↔ i.ref.ty = .void

theorem Module.Offers.mono {m m' : Module} {r : FuncRef} (h : m.Offers r)
    (hm : ∀ k f, m.function? k = some f → ∃ g, m'.function? k = some g ∧ g.ref = f.ref) :
    m'.Offers r := by
  obtain ⟨⟨f, hf, hr⟩, hn⟩ := h
  obtain ⟨g, hg, href⟩ := hm _ _ hf
  exact ⟨⟨g, hg, href.trans hr⟩, hn⟩

theorem getElem?_of_prefix {α : Type} {xs ys : List α} (h : xs <+: ys) {k : Nat} {x : α}
    (hx : xs[k]? = some x) : ys[k]? = some x := by
  obtain ⟨zs, rfl⟩ := h
  rw [List.getElem?_append_left (List.getElem?_eq_some_iff.mp hx).1, hx]

theorem Operation.Legal.mono {m m' : Module} {f f' : Function} {o : Operation} (h : o.Legal m f)
    (hg : m.globals <+: m'.globals)
    (hm : ∀ k f, m.function? k = some f → ∃ g, m'.function? k = some g ∧ g.ref = f.ref)
    (href : f'.ref = f.ref) (hslots : f.slots <+: f'.slots) : o.Legal m' f' where
  slot s hs := by
    rcases h.slot s hs with ⟨hh, hk⟩ | ⟨hh, hk⟩
    · exact .inl ⟨hh, getElem?_of_prefix hg hk⟩
    · exact .inr ⟨by rwa [Function.id, href], getElem?_of_prefix hslots hk⟩
  store s hs ho hh := by
    rw [Function.name, href]
    exact h.store s hs ho hh
  refs r hr := (h.refs r hr).mono hm
  value := h.value
  params k index name ty hp := by
    rw [href]
    exact h.params k index name ty hp

theorem Instr.Legal.mono {m m' : Module} {f f' : Function} {i : Instr} (h : i.Legal m f)
    (hg : m.globals <+: m'.globals)
    (hm : ∀ k f, m.function? k = some f → ∃ g, m'.function? k = some g ∧ g.ref = f.ref)
    (href : f'.ref = f.ref) (hslots : f.slots <+: f'.slots) : i.Legal m' f' :=
  { h.toLegal.mono hg hm href hslots with type := h.type, register := h.register }

structure Function.Written (f : Function) : Prop where
  nameable : Nameable f.name
  params : ∀ ty ∈ f.ref.params, ty = .real
  ret : f.ref.ret = .real

structure Function.Made (f : Function) : Prop extends f.Written where
  checked : f.native = true ∨ f.verify = .ok ()
  head : f.native = true ∨ ∃ b, f.blocks.head? = some b ∧ b.ref = ⟨f.id, 0, "entry"⟩

structure Chart where
  /-- What has been done on each way to a block. -/
  known : BlockRef → Fact → Prop
  /-- The number of globals when a function was declared. -/
  reach : Nat → Nat

def Chart.After (g : Chart) (b : Block) (φ : Fact) : Prop :=
  g.known b.ref φ ∨ ∃ i ∈ b.instrs, φ ∈ i.facts

namespace Lowering

def Here (g : Chart) (s : Lowering) (φ : Fact) : Prop :=
  ∃ r b, s.builder.point = some r ∧ s.block? r = some b ∧ g.After b φ

/-- The functions from the number `first` on are charted, and names stand for slots that are there.
-/
structure Charted (first : Nat) (g : Chart) (s : Lowering) : Prop where
  need : ∀ r b, first ≤ r.fn → s.block? r = some b → ∀ pre i post, b.instrs = pre ++ i :: post →
    ∀ φ, i.toOperation.Needs g.reach r.fn φ → g.known r φ ∨ ∃ j ∈ pre, φ ∈ j.facts
  edge : ∀ r b c, first ≤ r.fn → s.block? r = some b → some c ∈ b.successors →
    ∀ φ, g.known c φ → g.After b φ
  entry : ∀ k φ, ¬ g.known ⟨k, 0, "entry"⟩ φ
  fresh : ∀ r, s.block? r = none → r.index ≠ 0 → ∀ φ, g.known r φ
  legal : ∀ r f b, first ≤ r.fn → s.module.function? r.fn = some f → f.block? r = some b →
    ∀ i ∈ b.instrs, i.Legal s.module f
  reach : ∀ k f, s.module.function? k = some f → g.reach k ≤ s.module.globals.length
  globals : s.scopes.globals.map Prod.snd = s.module.globals
  homes : ∀ (k : Nat) (slot : Slot), s.module.globals[k]? = some slot →
    slot.home = .module ∧ slot.index = k
  locals : ∀ frame ∈ s.scopes.inner, ∀ x ∈ frame.vars, ∃ f,
    s.module.function? frame.owner.id = some f ∧ x.2.home = .activation f.id ∧
      f.slots[x.2.index]? = some x.2

/-- Where a tree may be lowered, with a chart: all that can be seen has been stored. -/
structure Surveyed (first fn : Nat) (framed : Bool) (g : Chart) (s : Lowering) : Prop where
  ready : s.Ready fn framed
  charted : s.Charted first g
  first_le : first ≤ fn
  site : ∃ r f b, s.At r f b
  stored : ∀ frame ∈ s.scopes.inner, frame.owner.id = fn → ∀ x ∈ frame.vars, s.Here g x.2.fact
  own : ∀ k, g.reach fn ≤ k → k < s.module.globals.length → s.Here g (.stored .module k)
  entry : s.depth = 0 → ∀ f, s.module.function? fn = some f → ∃ n, f.name = unitName n

/-- What lowering in the function `fn` leaves alone: all blocks but the one at the insertion point,
and all other functions. New functions are finished. -/
structure Keeps (fn : Nat) (g : Chart) (s : Lowering) (g' : Chart) (t : Lowering) : Prop where
  blocks : ∀ r b, s.block? r = some b → s.builder.point ≠ some r → t.block? r = some b
  point : ∀ r, t.builder.point = some r → s.builder.point = some r ∨ s.block? r = none
  known : ∀ r b, s.block? r = some b → g'.known r = g.known r
  reach : ∀ k f, s.module.function? k = some f → g'.reach k = g.reach k
  function : ∀ k f, s.module.function? k = some f → ∃ f', t.module.function? k =
    some f' ∧ f.Grows f'
  others : ∀ k f, k ≠ fn → s.module.function? k = some f → t.module.function? k = some f
  new : ∀ k f, k ≠ fn → s.module.function? k = none → t.module.function? k = some f → f.Made
  globals : s.module.globals <+: t.module.globals

structure Later (fn : Nat) (g : Chart) (s : Lowering) (g' : Chart) (t : Lowering) : Prop
    extends Keeps fn g s g' t, s.Advances t where
  here : ∀ φ, s.Here g φ → t.Here g' φ

variable {first fn : Nat} {framed : Bool} {g g' g'' : Chart} {s t u : Lowering}

theorem Keeps.refl (fn : Nat) (g : Chart) (s : Lowering) : Keeps fn g s g s where
  blocks _ _ h _ := h
  point _ h := .inl h
  known _ _ _ := rfl
  reach _ _ _ := rfl
  function _ f h := ⟨f, h, .refl f⟩
  others _ _ _ h := h
  new _ _ _ hn hf := by rw [hn] at hf; cases hf
  globals := List.prefix_rfl

theorem Keeps.isSome (h : Keeps fn g s g' t) {r : BlockRef} {b : Block} (hb : s.block? r = some b) :
    ∃ c, t.block? r = some c ∧ b.Grows c := by
  obtain ⟨f, hf, hb⟩ := Option.bind_eq_some_iff.mp hb
  obtain ⟨f', hf', hg⟩ := h.function _ _ hf
  obtain ⟨c, hc, hbc⟩ := hg.block? hb
  exact ⟨c, by rw [block?, hf']; exact hc, hbc⟩

theorem Keeps.trans (h : Keeps fn g s g' t) (h' : Keeps fn g' t g'' u) : Keeps fn g s g'' u where
  blocks r b hb hr := by
    have ht := h.blocks r b hb hr
    refine h'.blocks r b ht fun hp => ?_
    rcases h.point r hp with hp | hn
    · exact hr hp
    · rw [hn] at hb
      cases hb
  point r hr := by
    rcases h'.point r hr with hp | hn
    · exact h.point r hp
    · refine .inr ?_
      cases hb : s.block? r with
      | none => rfl
      | some b =>
        obtain ⟨c, hc, -⟩ := h.isSome hb
        rw [hn] at hc
        cases hc
  known r b hb := by
    obtain ⟨c, hc, -⟩ := h.isSome hb
    rw [h'.known r c hc, h.known r b hb]
  reach k f hf := by
    obtain ⟨f', hf', -⟩ := h.function k f hf
    rw [h'.reach k f' hf', h.reach k f hf]
  function k f hf := by
    obtain ⟨f', hf', hg⟩ := h.function k f hf
    obtain ⟨f'', hf'', hg'⟩ := h'.function k f' hf'
    exact ⟨f'', hf'', hg.trans hg'⟩
  others k f hk hf := h'.others k f hk (h.others k f hk hf)
  new k f hk hn hf := by
    cases ht : t.module.function? k with
    | none => exact h'.new k f hk ht hf
    | some f' =>
      obtain rfl := Option.some.inj ((h'.others k f' hk ht).symm.trans hf)
      exact h.new k f' hk hn ht
  globals := h.globals.trans h'.globals

theorem Later.refl (fn : Nat) (g : Chart) (s : Lowering) : Later fn g s g s :=
  { Keeps.refl fn g s, Advances.refl s with here := fun _ h => h }

theorem Later.trans (h : Later fn g s g' t) (h' : Later fn g' t g'' u) : Later fn g s g'' u :=
  { h.toKeeps.trans h'.toKeeps, h.toAdvances.trans h'.toAdvances with
    here := fun φ hφ => h'.here φ (h.here φ hφ) }

theorem Keeps.refs (h : Keeps fn g s g' t) (k : Nat) (f : Function)
    (hf : s.module.function? k = some f) :
    ∃ f', t.module.function? k = some f' ∧ f'.ref = f.ref := by
  obtain ⟨f', hf', hg⟩ := h.function k f hf
  exact ⟨f', hf', hg.ref⟩

theorem Here.of_at {r : BlockRef} {f : Function} {b : Block} (hs : s.At r f b) {φ : Fact} :
    s.Here g φ ↔ g.After b φ := by
  constructor
  · rintro ⟨r', b', hp, hb, h⟩
    cases hp.symm.trans hs.point
    cases hb.symm.trans hs.block?_eq
    exact h
  · exact fun h => ⟨r, b, hs.point, hs.block?_eq, h⟩

structure Callable (g : Chart) (s : Lowering) (fn : Nat) (f : FuncRef) : Prop where
  offers : s.module.Offers f
  here : ∀ k, g.reach fn ≤ k → k < g.reach f.id → s.Here g (.stored .module k)

theorem Callable.later {f : FuncRef} (h : s.Callable g fn f) (hl : Later fn g s g' t)
    (hf : (s.module.function? fn).isSome) : t.Callable g' fn f := by
  refine ⟨h.offers.mono hl.refs, fun k hk hlt => hl.here _ (h.here k ?_ ?_)⟩
  · obtain ⟨f, hf⟩ := Option.isSome_iff_exists.mp hf
    rwa [← hl.reach fn f hf]
  · obtain ⟨⟨f', hf', -⟩, -⟩ := h.offers
    rwa [← hl.reach f.id f' hf']

def Fit (g : Chart) (s : Lowering) (fn : Nat) : Operand → Prop
  | .real _ | .truth _ => True
  | .result r => s.Here g (.result r)
  | .func f => s.Callable g fn f ∧ Nameable f.name
  | .param _ index _ ty => ∀ f, s.module.function? fn = some f → f.ref.params[index]? = some ty
  | .hole => False

theorem Fit.later {x : Operand} (h : s.Fit g fn x) (hl : Later fn g s g' t)
    (hf : (s.module.function? fn).isSome) : t.Fit g' fn x := by
  cases x with
  | real | truth => trivial
  | result r => exact hl.here _ h
  | func f => exact ⟨h.1.later hl hf, h.2⟩
  | param k index name ty =>
    intro f' hf'
    obtain ⟨f, hf⟩ := Option.isSome_iff_exists.mp hf
    obtain ⟨f'', hf'', hr⟩ := hl.refs fn f hf
    cases hf''.symm.trans hf'
    rw [hr]
    exact h f hf
  | hole => exact h.elim

def Holds (s : Lowering) (fn : Nat) (slot : Slot) : Prop := ∀ f, s.module.function? fn = some f →
    slot.home = .module ∧ s.module.globals[slot.index]? = some slot ∨
      slot.home = .activation f.id ∧ f.slots[slot.index]? = some slot

structure Reads (g : Chart) (s : Lowering) (fn : Nat) (slot : Slot) : Prop where
  holds : s.Holds fn slot
  here : (slot.home = .module → g.reach fn ≤ slot.index) → s.Here g slot.fact

theorem Holds.keeps {slot : Slot} (h : s.Holds fn slot) (hk : Keeps fn g s g' t)
    (hf : (s.module.function? fn).isSome) : t.Holds fn slot := by
  intro f' hf'
  obtain ⟨f, hf⟩ := Option.isSome_iff_exists.mp hf
  obtain ⟨f'', hf'', hg⟩ := hk.function fn f hf
  cases hf''.symm.trans hf'
  rcases h f hf with ⟨hh, hs⟩ | ⟨hh, hs⟩
  · exact .inl ⟨hh, getElem?_of_prefix hk.globals hs⟩
  · exact .inr ⟨by rwa [hg.id], getElem?_of_prefix hg.slots hs⟩

theorem Reads.later {slot : Slot} (h : Reads g s fn slot) (hl : Later fn g s g' t)
    (hf : (s.module.function? fn).isSome) : Reads g' t fn slot := by
  refine ⟨h.holds.keeps hl.toKeeps hf, fun hr => hl.here _ (h.here fun hh => ?_)⟩
  obtain ⟨f, hf⟩ := Option.isSome_iff_exists.mp hf
  rw [← hl.reach fn f hf]
  exact hr hh

end Lowering

end RealScript
