import RealScript.Proofs.Lowering.Surveys

/-! # Lowering a tree keeps up a chart

One lemma for each construct says that it keeps up a chart if its parts do, and the induction over
the tree puts them together.
-/

namespace RealScript

variable {g₀ : Chart} {s₀ : Lowering} {c : BlockRef}

variable {cond : Lower Operand} {code : Opcode} {v x : Operand} {pos : Position} {name op : String}
  {y : Unit}

namespace Lowering

variable {first fn : Nat} {framed : Bool} {g g' g'' : Chart} {s t u : Lowering}

/-- A block that was created after the state `s₀`, is still empty and not at the insertion point. -/
structure Blank (s₀ s : Lowering) (fn : Nat) (c : BlockRef) : Prop where
  absent : s₀.block? c = none
  empty : s.block? c = some { ref := c }
  away : s.builder.point ≠ some c
  fn : c.fn = fn

theorem Blank.keeps (h : Blank s₀ s fn c) (hk : Keeps fn g s g' t) :
    Blank s₀ t fn c ∧ g'.known c = g.known c := by
  refine ⟨⟨h.absent, hk.blocks c _ h.empty h.away, fun hp => ?_, h.fn⟩, hk.known c _ h.empty⟩
  rcases hk.point c hp with hp | hn
  · exact h.away hp
  · rw [h.empty] at hn
    cases hn

theorem Blank.jumped {targets : List (Option BlockRef)} (h : Blank s₀ s fn c)
    (hj : Jumped fn framed g s targets g' t) : Blank s₀ t fn c :=
  ⟨h.absent, by rw [hj.blocks c h.away]; exact h.empty, by rw [hj.point]; exact h.away, h.fn⟩

theorem Blank.goTo {d : BlockRef} (h : Blank s₀ s fn c) (hd : d ≠ c) :
    Blank s₀ (s.goTo (some d)) fn c :=
  ⟨h.absent, h.empty, fun hp => hd (Option.some.inj hp), h.fn⟩

theorem Blank.ne {d : BlockRef} (h : Blank s₀ s fn c) (hd : s.block? d = none) : c ≠ d := by
  rintro rfl
  rw [h.empty] at hd
  cases hd

theorem Blank.pair {d : BlockRef} (h : Blank s₀ s fn c) (h' : Blank s₀ t fn d) :
    ∀ e, some e ∈ [some c, some d] → s₀.block? e = none := by
  intro e he
  rcases List.mem_cons.mp he with he | he
  · exact Option.some.inj he ▸ h.absent
  · exact Option.some.inj (List.mem_singleton.mp he) ▸ h'.absent

theorem Surveyed.blank (h : Surveyed first fn framed g s) (hk : Keeps fn g₀ s₀ g s)
    (hc : Lower.build (.createBlock name) s = .ok c t) :
    Surveyed first fn framed g t ∧ Later fn g s g t ∧ t.scopes = s.scopes ∧ Blank s₀ t fn c ∧
      s.block? c = none ∧ ∀ φ, g.known c φ := by
  obtain ⟨hs, hl, hscopes, hpoint, hnone, hnew, hfn, hknown⟩ := h.createBlock hc
  refine ⟨hs, hl, hscopes, ⟨?_, hnew, fun hp => ?_, hfn⟩, hnone, hknown⟩
  · cases hb : s₀.block? c with
    | none => rfl
    | some b =>
      obtain ⟨b', hb', -⟩ := hk.isSome hb
      rw [hnone] at hb'
      cases hb'
  · obtain ⟨r, f, b, hat⟩ := h.site
    cases hat.point.symm.trans (hpoint.symm.trans hp)
    rw [hat.block?_eq] at hnone
    cases hnone

theorem Drawn.resume (h : Drawn first fn framed g' t) (hs : Surveyed first fn framed g s)
    (hc : Blank s₀ t fn c) (hscopes : t.scopes = s.scopes)
    (hglobals : t.module.globals = s.module.globals) (hreach : g'.reach fn = g.reach fn)
    (hknown : ∀ φ, s.Here g φ → g'.known c φ) :
    Surveyed first fn framed g' (t.goTo (some c)) ∧
      ∀ φ, (t.goTo (some c)).Here g' φ ↔ g'.known c φ := by
  obtain ⟨hdrawn, hsite, hhere⟩ := h.goTo hc.empty rfl hc.fn
  exact ⟨hdrawn.surveyed hs hsite hscopes hglobals hreach fun φ hφ => (hhere φ).mpr (hknown φ hφ),
    hhere⟩

theorem Surveyed.function_isSome (h : Surveyed first fn framed g s) :
    (s.module.function? fn).isSome :=
  h.ready.function_isSome

theorem globals_of_scopes (hs : s.Charted first g) (ht : t.Charted first g')
    (h : t.scopes.globals = s.scopes.globals) : t.module.globals = s.module.globals := by
  rw [← ht.globals, ← hs.globals, h]

theorem Keeps.reach_eq (hk : Keeps fn g₀ s₀ g s)
    (h₀ : Surveyed first fn framed g₀ s₀) : g.reach fn = g₀.reach fn := by
  obtain ⟨f, hf⟩ := Option.isSome_iff_exists.mp h₀.function_isSome
  exact hk.reach fn f hf

/-! ## Jumps and frames -/

section

variable (h : Surveyed first fn framed g s)

include h

theorem Surveyed.leap {d : Draft} (ho : Build.Offered (.emit d))
    (htype : d.ty = d.toOperation.resultTy) (hslot : d.slot = none) (hcallee : d.callee = none)
    (hargs : ∀ x ∈ d.args, s.Fit g fn x)
    (htargets : ∀ c, some c ∈ d.targets → ∃ e, s.block? c = some e ∧
      (e.instrs = [] ∨ ∀ φ, g.known c φ → s.Here g φ))
    (hx : Lower.build (.emit d) s = .ok x t) :
    ∃ g', Drawn first fn framed g' t ∧ Jumped fn framed g s d.targets g' t :=
  have hfits : Fits g s fn d.toOperation := .of_args hargs hslot hcallee
  h.jump ho (fun _ hf => hfits.legal h.drawn hf) htype (fun _ => hfits.needs) htargets hx

theorem Surveyed.br {e : Block}
    (hc : s.block? c = some e) (he : e.instrs = [] ∨ ∀ φ, g.known c φ → s.Here g φ) {x : Operand}
    (hx : Lower.build (.br (some c)) s = .ok x t) :
    ∃ g', Drawn first fn framed g' t ∧ Jumped fn framed g s [some c] g' t := by
  refine h.leap (d := .br (some c)) (.br _) rfl rfl rfl (by simp [Draft.br]) (fun c' hc' => ?_) hx
  obtain rfl : c' = c := by simpa [Draft.br] using hc'
  exact ⟨e, hc, he⟩

theorem Surveyed.condBr {v : Operand} (hv : s.Fit g fn v)
    {c' : BlockRef} {e e' : Block} (hc : s.block? c = some e)
    (he : e.instrs = [] ∨ ∀ φ, g.known c φ → s.Here g φ) (hc' : s.block? c' = some e')
    (he' : e'.instrs = []) {x : Operand}
    (hx : Lower.build (.condBr v (some c) (some c')) s = .ok x t) :
    ∃ g', Drawn first fn framed g' t ∧ Jumped fn framed g s [some c, some c'] g' t := by
  refine h.leap (d := .condBr v (some c) (some c')) (.condBr v _ _) rfl rfl rfl
    (by simpa [Draft.condBr] using hv) (fun r hr => ?_) hx
  have hr : some r ∈ [some c, some c'] := hr
  rcases List.mem_cons.mp hr with hr | hr
  · cases hr
    exact ⟨e, hc, he⟩
  · cases List.mem_singleton.mp hr
    exact ⟨e', hc', .inl he'⟩

theorem Surveyed.ret {v : Operand} (hv : s.Fit g fn v) {x : Operand}
    (hx : Lower.build (.ret (some v)) s = .ok x t) :
    ∃ g', Drawn first fn framed g' t ∧ Jumped fn framed g s [] g' t :=
  h.leap (d := .ret (some v)) (.ret _) rfl rfl rfl (by simpa [Draft.ret] using hv)
    (fun c hc => by cases hc) hx

end

theorem site_of_builder (h : ∃ r f b, s.At r f b) (hb : t.builder = s.builder) :
    ∃ r f b, t.At r f b := by
  obtain ⟨r, f, b, hat⟩ := h
  have hm : t.module = s.module := by rw [module, hb, module]
  exact ⟨r, f, b, by rw [hb]; exact hat.point, by rw [hm]; exact hat.function, hat.block, hat.open_⟩

theorem Surveyed.enter (h : Surveyed first fn framed g s) {f : FuncRef} (hid : f.id = fn) :
    Surveyed first fn true g { s with scopes := s.scopes.enter f } where
  ready := h.ready.enter hid
  charted := h.charted.congr rfl rfl fun frame hframe x hx => by
    rcases List.mem_cons.mp hframe with rfl | hframe
    · cases hx
    · exact h.charted.locals frame hframe x hx
  first_le := h.first_le
  site := site_of_builder h.site rfl
  stored frame hframe ho x hx := by
    rcases List.mem_cons.mp hframe with rfl | hframe
    · cases hx
    · exact h.stored frame hframe ho x hx
  own := h.own
  entry := h.entry

theorem Later.keeps_enter
    {f : FuncRef} (h : Later fn g { s with scopes := s.scopes.enter f } g' t) :
    Keeps fn g s g' t :=
  ⟨h.blocks, h.toKeeps.point, h.known, h.reach, h.function, h.others, h.new, h.toKeeps.globals⟩

theorem Fit.enter (h : s.Fit g fn x) (f : FuncRef) :
    Fit g { s with scopes := s.scopes.enter f } fn x := by
  cases x with
  | func r => exact ⟨⟨h.1.offers, h.1.here⟩, h.2⟩
  | _ => exact h

theorem Surveyed.leave (hs : Surveyed first fn framed g s) {f : FuncRef} {u : Lowering}
    (hu : Drawn first fn true g' u) (hsite : ∃ r f b, u.At r f b) (hk : Keeps fn g s g' u)
    (hext : (s.scopes.enter f).Extends u.scopes) (hhere : ∀ φ, s.Here g φ → u.Here g' φ)
    (hready : Ready fn framed { u with scopes := u.scopes.leave }) (hdepth : u.depth = s.depth) :
    Surveyed first fn framed g' { u with scopes := u.scopes.leave } ∧
      Later fn g s g' { u with scopes := u.scopes.leave } := by
  have hscopes : u.scopes.leave = s.scopes := hext.leave
  have hcharted : Charted first g' { u with scopes := u.scopes.leave } := by
    refine hu.charted.congr rfl rfl fun frame hframe x hx => ?_
    rw [hscopes] at hframe
    obtain ⟨f, hf, hhome, hslot⟩ := hs.charted.locals frame hframe x hx
    obtain ⟨f', hf', hg⟩ := hk.function _ _ hf
    exact ⟨f', hf', by rwa [hg.id], getElem?_of_prefix hg.slots hslot⟩
  obtain ⟨f₀, hf₀⟩ := Option.isSome_iff_exists.mp hs.function_isSome
  refine ⟨Drawn.surveyed ⟨hready, hcharted, hu.first_le, hu.entry⟩ hs
    (site_of_builder hsite rfl) hscopes
    (globals_of_scopes hs.charted hcharted (by rw [hscopes])) (hk.reach fn f₀ hf₀) hhere, ?_⟩
  exact
    { hk with
      fn := hready.inside.trans hs.ready.inside.symm
      scopes := by
        change s.scopes.Extends u.scopes.leave
        rw [hscopes]
        exact .refl _
      depth := hdepth
      here := hhere }

end Lowering

namespace Lower

open Stateful Lowering

variable {α : Type} {first fn : Nat} {framed : Bool} {g g' : Chart} {s t : Lowering}

theorem function?_run (name : String) : function? name s = .ok (s.module.find? name) s := rfl

theorem lookup_run (name : String) : lookup name s = .ok (s.scopes.lookup name) s := rfl

def Surveys (framed : Bool) (x : Lower α) (Q : Chart → Lowering → Nat → α → Prop) : Prop :=
  ∀ first fn g s, Surveyed first fn framed g s → ∀ a t, x s = .ok a t →
    ∃ g', Surveyed first fn framed g' t ∧ Later fn g s g' t ∧ Q g' t fn a

abbrev GivesFit (framed : Bool) (x : Lower Operand) : Prop :=
  Surveys framed x fun g t fn a => t.Fit g fn a

theorem reject_ne_ok {cause : Cause} {a : α} : (reject pos cause : Lower α) s ≠ .ok a t := nofun

theorem reject_bind_ne_ok {β : Type} {cause : Cause} {f : β → Lower α} {a : α} :
    ((reject pos cause : Lower β) >>= f) s ≠ .ok a t := nofun

/-! ## Expressions -/

theorem functionValue_surveys (h : Surveyed first fn framed g s) {f : FuncRef}
    (hf : s.module.Offers f)
    (hname : Nameable f.name) (hx : functionValue f s = .ok x t) :
    Surveyed first fn framed g t ∧ Later fn g s g t ∧ t.Fit g fn x := by
  obtain ⟨slot, s₁, hslot, hx⟩ := bind_eq_ok hx
  obtain ⟨y, s₂, hy, hx⟩ := bind_eq_ok hx
  obtain ⟨h₁, hl₁, -, -, -, hhome⟩ := h.allocate hslot
  obtain ⟨f₁, hf₁⟩ := Option.isSome_iff_exists.mp h₁.function_isSome
  have hholds : s₁.Holds fn slot := fun f' hf' => .inr (hhome f' hf')
  have hfit : s₁.Fit g fn (.func f) := ⟨h₁.callable (hf.mono hl₁.refs), hname⟩
  obtain ⟨h₂, hl₂, -, hhere⟩ := h₁.store hholds hfit
    (fun hh => by rw [(hhome f₁ hf₁).1] at hh; cases hh) hy
  have hreads : Reads g s₂ fn slot := ⟨hholds.keeps hl₂.toKeeps h₁.function_isSome, fun _ => hhere⟩
  obtain ⟨h₃, hl₃, hfit⟩ := h₂.load hreads hx
  exact ⟨h₃, (hl₁.trans hl₂).trans hl₃, hfit⟩

theorem requireReal_eq_ok {role : Role}
    (h : requireReal role pos v s = .ok x t) : x = v ∧ t = s ∧ v.ty = .real := by
  unfold requireReal at h
  split at h
  · cases h
    exact ⟨rfl, rfl, ‹_›⟩
  · cases h

theorem condition_surveys (h : Surveyed first fn framed g s)
    (hv : s.Fit g fn v) (hx : condition pos v s = .ok x t) :
    Surveyed first fn framed g t ∧ Later fn g s g t ∧ t.Fit g fn x := by
  obtain ⟨w, s₁, hw, hb⟩ := bind_eq_ok hx
  obtain ⟨rfl, rfl, -⟩ := requireReal_eq_ok hw
  exact h.compute (d := .toBool w) (.toBool w) rfl rfl rfl rfl rfl
    (by simpa [Draft.toBool] using hv) hb

theorem offers_of_find? (h : s.Ready fn framed) {f : Function}
    (hf : s.module.find? name = some f) (hname : ∀ n, name ≠ unitName n) :
    s.module.Offers f.ref := by
  obtain ⟨k, hk, -⟩ := Module.mem_functions.mp (List.mem_of_find?_eq_some hf)
  have hid : f.ref.id = k := h.orderly.numbered k f hk
  have hn : f.name = name := by simpa using List.find?_some hf
  exact ⟨⟨f, by rw [hid]; exact hk, rfl⟩, fun n he => hname n (hn ▸ he)⟩

theorem unitName_ne (h : Plain name) (n : Nat) : name ≠ unitName n :=
  fun he => not_plain_unitName n (he ▸ h)

theorem readVariable_surveys (hname : IsName name) (hp : Plain name) (pos : Position) :
    GivesFit framed (readVariable pos name) := by
  intro first fn g s h x t hx
  unfold readVariable at hx
  rw [bind_run, lookup_run] at hx
  dsimp only at hx
  cases hslot : s.scopes.lookup name with
  | some slot =>
    rw [hslot] at hx
    exact ⟨g, h.load (h.lookup hslot) hx⟩
  | none =>
    rw [hslot] at hx
    dsimp only at hx
    rw [bind_run, function?_run] at hx
    dsimp only at hx
    cases hfun : s.module.find? name with
    | some f =>
      rw [hfun] at hx
      have hn : f.name = name := by simpa using List.find?_some hfun
      exact ⟨g, functionValue_surveys h (offers_of_find? h.ready hfun (unitName_ne hp))
        (.inl (by rw [← hn] at hname; exact hname)) hx⟩
    | none =>
      rw [hfun] at hx
      cases hx

theorem assign_surveys (hname : Plain name) (h : Surveyed first fn framed g s)
    {valuePos targetPos : Position} (hv : s.Fit g fn v)
    (hx : assign pos valuePos targetPos name v s = .ok x t) :
    Surveyed first fn framed g t ∧ Later fn g s g t ∧ t.Fit g fn x := by
  unfold assign at hx
  dsimp only at hx
  split at hx
  · exact absurd hx reject_bind_ne_ok
  · rw [bind_run, get_run] at hx
    dsimp only at hx
    cases hvisible : (s.scopes.lookup name).filter
      (fun slot => !(slot.isGlobal && 0 < s.depth)) with
    | some slot =>
      rw [hvisible] at hx
      obtain ⟨hslot, hdepth⟩ := Option.filter_eq_some_iff.mp hvisible
      dsimp only at hx
      split at hx
      · exact absurd hx reject_bind_ne_ok
      · obtain ⟨y, s₁, hy, hx⟩ := bind_eq_ok hx
        cases hx
        obtain ⟨h₁, hl₁, -⟩ := h.store (h.lookup hslot).1 hv
          (fun hh => by simpa [Slot.isGlobal, hh] using hdepth) hy
        exact ⟨h₁, hl₁, hv.later hl₁ h.function_isSome⟩
    | none =>
      rw [hvisible] at hx
      dsimp only at hx
      rw [bind_run, function?_run] at hx
      dsimp only at hx
      cases hfun : s.module.find? name with
      | some f =>
        rw [hfun] at hx
        exact absurd hx reject_bind_ne_ok
      | none =>
        rw [hfun] at hx
        obtain ⟨slot, s₁, hnew, hx⟩ := bind_eq_ok hx
        obtain ⟨y, s₂, hy, hx⟩ := bind_eq_ok hx
        cases hx
        obtain ⟨h₂, hl₂, -⟩ := h.declare (free_of_hidden hname h.ready hfun hvisible) hv hnew hy
        exact ⟨h₂, hl₂, hv.later hl₂ h.function_isSome⟩

theorem isArithmetic_of_arithmetic? (h : arithmetic? op = some code) :
    code.isArithmetic = true := by
  unfold arithmetic? at h
  split at h <;> cases h <;> rfl

theorem isLogical_of_logical? (h : logical? op = some code) : code.isLogical = true := by
  unfold logical? at h
  split at h <;> cases h <;> rfl

theorem offered_arithmetic (h : code.isArithmetic = true) (l r : Operand) :
    Build.arithmetic code l r = Build.emit (.arithmetic code l r) ∧
      Build.Offered (.emit (.arithmetic code l r)) ∧ code.isTerminator = false ∧
      (Draft.arithmetic code l r).toOperation.resultTy = .real := by
  have heq : Build.arithmetic code l r = Build.emit (.arithmetic code l r) := by
    rw [Build.arithmetic, if_pos h]
  refine ⟨heq, heq ▸ Build.Offered.arithmetic code l r, ?_, ?_⟩ <;>
    cases code <;> simp_all [Opcode.isArithmetic, Opcode.isTerminator, Operation.resultTy,
      Draft.arithmetic]

theorem offered_logic (h : code.isLogical = true) (l r : Operand) :
    Build.logic code l r = Build.emit (.logic code l r) ∧
      Build.Offered (.emit (.logic code l r)) ∧ code.isTerminator = false ∧
      (Draft.logic code l r).toOperation.resultTy = .bool := by
  have heq : Build.logic code l r = Build.emit (.logic code l r) := by
    rw [Build.logic, if_pos h]
  refine ⟨heq, heq ▸ Build.Offered.logic code l r, ?_, ?_⟩ <;>
    cases code <;> simp_all [Opcode.isLogical, Opcode.isTerminator, Operation.resultTy, Draft.logic]

theorem binary_surveys (h : Surveyed first fn framed g s)
    {l r : Operand} (hl : s.Fit g fn l) (hr : s.Fit g fn r) (hx : binary pos op l r s = .ok x t) :
    Surveyed first fn framed g t ∧ Later fn g s g t ∧ t.Fit g fn x := by
  unfold binary at hx
  dsimp only at hx
  split at hx
  · exact absurd hx reject_bind_ne_ok
  · rcases hcode : arithmetic? op with _ | code
    case some =>
      rw [hcode] at hx
      obtain ⟨heq, ho, hterm, hty⟩ := offered_arithmetic (isArithmetic_of_arithmetic? hcode) l r
      dsimp only at hx
      rw [heq] at hx
      exact h.compute ho hterm rfl hty.symm rfl rfl (by simp [Draft.arithmetic, hl, hr]) hx
    rw [hcode] at hx
    rcases hcompare : comparison? op with _ | p
    case some =>
      rw [hcompare] at hx
      dsimp only at hx
      rw [build_bind] at hx
      obtain ⟨y, s₁, hy, hx⟩ := bind_eq_ok hx
      obtain ⟨h₁, hl₁, hy⟩ := h.compute (.compare _ l r) rfl rfl rfl rfl rfl
        (by simp [Draft.compare, hl, hr]) hy
      obtain ⟨h₂, hl₂, hx⟩ := h₁.compute (.toReal y) rfl rfl rfl rfl rfl
        (by simp [Draft.toReal, hy]) hx
      exact ⟨h₂, hl₁.trans hl₂, hx⟩
    rw [hcompare] at hx
    rcases hlogic : logical? op with _ | code
    case none =>
      rw [hlogic] at hx
      exact absurd hx reject_ne_ok
    case some =>
      rw [hlogic] at hx
      simp only [build_bind] at hx
      obtain ⟨y, s₁, hy, hx⟩ := bind_eq_ok hx
      obtain ⟨z, s₂, hz, hx⟩ := bind_eq_ok hx
      obtain ⟨v, s₃, hv, hx⟩ := bind_eq_ok hx
      obtain ⟨h₁, hl₁, hy⟩ := h.compute (.toBool l) rfl rfl rfl rfl rfl
        (by simp [Draft.toBool, hl]) hy
      obtain ⟨h₂, hl₂, hz⟩ := h₁.compute (.toBool r) rfl rfl rfl rfl rfl
        (by simp [Draft.toBool, hr.later hl₁ h.function_isSome]) hz
      obtain ⟨heq, ho, hterm, hty⟩ := offered_logic (isLogical_of_logical? hlogic) y z
      rw [heq] at hv
      obtain ⟨h₃, hl₃, hv⟩ := h₂.compute ho hterm rfl hty.symm rfl rfl
        (by simp [Draft.logic, hy.later hl₂ h₁.function_isSome, hz]) hv
      obtain ⟨h₄, hl₄, hx⟩ := h₃.compute (.toReal v) rfl rfl rfl rfl rfl
        (by simp [Draft.toReal, hv]) hx
      exact ⟨h₄, ((hl₁.trans hl₂).trans hl₃).trans hl₄, hx⟩

theorem unary_surveys (h : Surveyed first fn framed g s) (hv : s.Fit g fn v)
    (hx : build (do Build.toReal (← Build.not (← Build.toBool v))) s = .ok x t) :
    Surveyed first fn framed g t ∧ Later fn g s g t ∧ t.Fit g fn x := by
  simp only [build_bind] at hx
  obtain ⟨y, s₁, hy, hx⟩ := bind_eq_ok hx
  obtain ⟨z, s₂, hz, hx⟩ := bind_eq_ok hx
  obtain ⟨h₁, hl₁, hy⟩ := h.compute (.toBool v) rfl rfl rfl rfl rfl (by simp [Draft.toBool, hv]) hy
  obtain ⟨h₂, hl₂, hz⟩ := h₁.compute (.not y) rfl rfl rfl rfl rfl (by simp [Draft.not, hy]) hz
  obtain ⟨h₃, hl₃, hx⟩ := h₂.compute (.toReal z) rfl rfl rfl rfl rfl (by simp [Draft.toReal, hz]) hx
  exact ⟨h₃, (hl₁.trans hl₂).trans hl₃, hx⟩

def CalleeFit (g : Chart) (s : Lowering) (fn : Nat) : Callee → Prop
  | .function f => s.Callable g fn f
  | .slot slot _ => Reads g s fn slot

theorem CalleeFit.later {c : Callee} (h : CalleeFit g s fn c) (hl : Later fn g s g' t)
    (hf : (s.module.function? fn).isSome) : CalleeFit g' t fn c := by
  cases c with
  | function f => exact Callable.later h hl hf
  | slot slot arity => exact Reads.later h hl hf

theorem callee_surveys (h : Surveyed first fn framed g s) {builtin : Bool} (hname : Plain name)
    {c : Callee} (hx : callee pos builtin name s = .ok c t) :
    t = s ∧ CalleeFit g s fn c := by
  have hoffers : ∀ {f}, s.module.find? name = some f → s.Callable g fn f.ref := fun hf =>
    h.callable (offers_of_find? h.ready hf (unitName_ne hname))
  unfold callee at hx
  split at hx
  · rw [bind_run, function?_run] at hx
    dsimp only at hx
    cases hf : (s.module.find? name).filter (·.native) with
    | some f =>
      rw [hf] at hx
      cases hx
      exact ⟨rfl, hoffers (Option.filter_eq_some_iff.mp hf).1⟩
    | none =>
      rw [hf] at hx
      cases hx
  · rw [bind_run, lookup_run] at hx
    dsimp only at hx
    cases hslot : s.scopes.lookup name with
    | some slot =>
      rw [hslot] at hx
      dsimp only at hx
      cases hty : slot.ty <;> rw [hty] at hx
      case func arity =>
        cases hx
        exact ⟨rfl, h.lookup hslot⟩
      all_goals cases hx
    | none =>
      rw [hslot] at hx
      dsimp only at hx
      rw [bind_run, function?_run] at hx
      dsimp only at hx
      cases hf : s.module.find? name with
      | some f =>
        rw [hf] at hx
        cases hx
        exact ⟨rfl, hoffers hf⟩
      | none =>
        rw [hf] at hx
        cases hx

theorem call_surveys (h : Surveyed first fn framed g s) {c : Callee} {args : List Operand}
    (hc : CalleeFit g s fn c) (hargs : ∀ x ∈ args, s.Fit g fn x) (hx : call c args s = .ok x t) :
    Surveyed first fn framed g t ∧ Later fn g s g t ∧ t.Fit g fn x := by
  cases c with
  | function f =>
    have hfits : Fits g s fn (Draft.call f args).toOperation :=
      ⟨hargs, nofun, nofun, nofun, fun _ h => by cases h; exact hc⟩
    obtain ⟨h₁, hl₁, -, hx, -⟩ := h.place (.call f args) rfl rfl rfl hfits hx
    exact ⟨h₁, hl₁, hx⟩
  | slot slot arity =>
    simp only [call, build_bind] at hx
    obtain ⟨y, s₁, hy, hx⟩ := bind_eq_ok hx
    obtain ⟨h₁, hl₁, hy⟩ := h.load hc hy
    obtain ⟨h₂, hl₂, hx⟩ := h₁.compute (.callIndirect y args) rfl rfl rfl rfl rfl (fun z hz => by
      rcases List.mem_cons.mp hz with rfl | hz
      · exact hy
      · exact (hargs z hz).later hl₁ h.function_isSome) hx
    exact ⟨h₂, hl₁.trans hl₂, hx⟩

theorem collection_surveys (h : Surveyed first fn framed g s) {elements : List Operand}
    (hargs : ∀ x ∈ elements, s.Fit g fn x) (hx : collection elements s = .ok x t) :
    Surveyed first fn framed g t ∧ Later fn g s g t ∧ t.Fit g fn x := by
  unfold collection at hx
  cases hdata : elements.mapM Operand.number? with
  | some data =>
    rw [hdata] at hx
    exact h.compute (.constCollection data) rfl rfl rfl rfl rfl (by simp [Draft.constCollection]) hx
  | none =>
    rw [hdata] at hx
    exact h.compute (.makeCollection elements) rfl rfl rfl rfl rfl hargs hx

theorem checkArguments_eq_ok {callee : String} {want : List Ty}
    {args : List (Position × Operand)} {vs : List Operand}
    (h : checkArguments pos callee want args s = .ok vs t) : vs = args.map Prod.snd ∧ t = s := by
  rcases checkArguments_run pos callee want args s with hr | ⟨e, hr⟩
  · rw [hr] at h
    cases h
    exact ⟨rfl, rfl⟩
  · rw [hr] at h
    cases h

/-! ## Blocks -/

theorem closeBlock_eq_ok (h : ∃ r f b, s.At r f b)
    (hx : closeBlock c s = .ok y t) : ∃ x, build (.br (some c)) s = .ok x t := by
  obtain ⟨r, f, b, hat⟩ := h
  unfold closeBlock at hx
  rw [bind_run, get_run] at hx
  simp only [hat.not_terminated, Bool.false_eq_true, if_false] at hx
  obtain ⟨x, s₁, hbr, hp⟩ := bind_eq_ok hx
  obtain ⟨-, rfl⟩ := EStateM.Result.ok.inj hp
  exact ⟨x, hbr⟩

theorem moveTo_eq_ok (hx : build (.moveTo (some c)) s = .ok y t) : t = s.goTo (some c) := by
  obtain ⟨-, rfl⟩ := EStateM.Result.ok.inj hx
  rfl

theorem inFrame_run_eq_ok {x : Lower α} {a : α} {f : FuncRef} (hf : currentFunction s = .ok f s)
    (hx : inFrame x s = .ok a t) :
    ∃ u, x { s with scopes := s.scopes.enter f } = .ok a u ∧
    t = { u with scopes := u.scopes.leave } := by
  rw [inFrame_run hf] at hx
  cases hr : x { s with scopes := s.scopes.enter f } with
  | error e u =>
    rw [hr] at hx
    obtain ⟨_, _, -, hx⟩ := bind_eq_ok hx
    cases hx
  | ok a' u =>
    rw [hr] at hx
    obtain ⟨_, u', hleave, hx⟩ := bind_eq_ok hx
    cases hx
    refine ⟨u, rfl, ?_⟩
    unfold leave Scopes.pop at hleave
    split at hleave <;> rename_i hpop
    · split at hpop <;> cases hpop
      exact (EStateM.Result.ok.inj hleave).2.symm
    · cases hleave

theorem inFrame_eq_ok {x : Lower α} {a : α} (hr : s.Ready fn framed) (hx : inFrame x s = .ok a t) :
    ∃ f u, f.id = fn ∧ x { s with scopes := s.scopes.enter f } = .ok a u ∧
      t = { u with scopes := u.scopes.leave } := by
  obtain ⟨f, hf, hid, -⟩ := currentFunction_run hr
  obtain ⟨u, hu⟩ := inFrame_run_eq_ok hf hx
  exact ⟨f, u, hid, hu⟩

theorem inFrame_surveys {x : Lower α} (hp : ∀ fn, Progress fn true x fun _ => True)
    (hx : Surveys true x fun _ _ _ _ => True) (h : Surveyed first fn framed g s) {a : α}
    (hrun : inFrame x s = .ok a t) :
    ∃ g', Surveyed first fn framed g' t ∧ Later fn g s g' t ∧ t.scopes = s.scopes := by
  obtain ⟨hsteps, hadv, -⟩ := (inFrame_progress (hp fn) s h.ready).ok hrun
  obtain ⟨f, u, hid, hbody, rfl⟩ := inFrame_eq_ok h.ready hrun
  obtain ⟨g', hu, hl, -⟩ := hx first fn g _ (h.enter hid) a u hbody
  obtain ⟨hsur, hlater⟩ := h.leave hu.drawn hu.site hl.keeps_enter hl.scopes
    (fun φ hφ => hl.here φ hφ)
    (h.ready.advance hsteps hadv) hadv.depth
  exact ⟨g', hsur, hlater, hl.scopes.leave⟩

theorem inBlock_surveys {x : Lower α} {block join : BlockRef}
    (hp : ∀ fn, Progress fn true x fun _ => True) (hx : Surveys true x fun _ _ _ _ => True)
    (h₀ : Surveyed first fn framed g₀ s₀) (h : Drawn first fn framed g s) (hk : Keeps fn g₀ s₀ g s)
    (hscopes : s.scopes = s₀.scopes) (hblock : Blank s₀ s fn block) (hjoin : Blank s₀ s fn join)
    (hne : block ≠ join) (hb : ∀ φ, s₀.Here g₀ φ → g.known block φ)
    (hj : ∀ φ, s₀.Here g₀ φ → g.known join φ) (hrun : inBlock block join x s = .ok y t) :
    ∃ g', Drawn first fn framed g' t ∧ Keeps fn g₀ s₀ g' t ∧ t.scopes = s₀.scopes ∧
      t.depth = s.depth ∧ Blank s₀ t fn join ∧ (∀ φ, s₀.Here g₀ φ → g'.known join φ) ∧
      ∀ c, Blank s₀ s fn c → block ≠ c → join ≠ c → Blank s₀ t fn c ∧ g'.known c = g.known c := by
  unfold inBlock at hrun
  obtain ⟨_, s₁, hmove, hrun⟩ := bind_eq_ok hrun
  obtain rfl := moveTo_eq_ok hmove
  obtain ⟨a, s₂, hframe, hrun⟩ := bind_eq_ok hrun
  obtain ⟨h₁, hhere⟩ := h.resume h₀ hblock hscopes
    (globals_of_scopes h₀.charted h.charted (by rw [hscopes])) (hk.reach_eq h₀) hb
  obtain ⟨g₂, h₂, hl₂, hscopes₂⟩ := inFrame_surveys hp hx h₁ hframe
  have hk₂ := (hk.goTo hblock.absent).trans hl₂.toKeeps
  obtain ⟨hjoin₂, hknown₂⟩ := (hjoin.goTo hne).keeps hl₂.toKeeps
  obtain ⟨z, hbr⟩ := closeBlock_eq_ok h₂.site hrun
  obtain ⟨g₃, h₃, hj₃⟩ := h₂.br hjoin₂.empty (.inl rfl) hbr
  refine ⟨g₃, h₃, hj₃.keeps _ _ hk₂ ?_, ?_, hj₃.depth.trans hl₂.depth, hjoin₂.jumped hj₃,
    fun φ hφ => ?_, fun c hc hbc hjc => ?_⟩
  · intro c hc
    obtain rfl : c = join := by simpa using hc
    exact hjoin.absent
  · rw [hj₃.scopes, hscopes₂]
    exact hscopes
  · refine (hj₃.known join φ).mpr ⟨hknown₂ ▸ hj φ hφ, fun _ => hl₂.here φ ((hhere φ).mpr (hb φ hφ))⟩
  · obtain ⟨hc₂, hkc⟩ := (hc.goTo hbc).keeps hl₂.toKeeps
    refine ⟨hc₂.jumped hj₃, ?_⟩
    funext φ
    rw [← hkc]
    have hcj : some c ∉ [some join] := by
      simpa using Ne.symm hjc
    simp [hj₃.known c φ, hcj]

theorem join_surveys {join : BlockRef}
    (h₀ : Surveyed first fn framed g₀ s₀) (h : Drawn first fn framed g s) (hk : Keeps fn g₀ s₀ g s)
    (hscopes : s.scopes = s₀.scopes) (hjoin : Blank s₀ s fn join)
    (hj : ∀ φ, s₀.Here g₀ φ → g.known join φ) (hdepth : s.depth = s₀.depth) :
    Surveyed first fn framed g (s.goTo (some join)) ∧ Later fn g₀ s₀ g (s.goTo (some join)) := by
  obtain ⟨h₁, hhere⟩ := h.resume h₀ hjoin hscopes
    (globals_of_scopes h₀.charted h.charted (by rw [hscopes])) (hk.reach_eq h₀) hj
  refine ⟨h₁, ?_⟩
  exact
    { hk.goTo hjoin.absent with
      fn := h₁.ready.inside.trans h₀.ready.inside.symm
      scopes := by
        change s₀.scopes.Extends s.scopes
        rw [hscopes]
        exact .refl _
      depth := hdepth
      here := fun φ hφ => (hhere φ).mpr (hj φ hφ) }

theorem ifThen_surveys {body : Lower α} (hcond : GivesFit framed cond)
    (hp : ∀ fn, Progress fn true body fun _ => True)
    (hbody : Surveys true body fun _ _ _ _ => True) :
    GivesFit framed (ifThen cond body) := by
  intro first fn g s h x t hx
  obtain ⟨c, s₁, hc, hx⟩ := bind_eq_ok hx
  obtain ⟨yes, s₂, hyes, hx⟩ := bind_eq_ok hx
  obtain ⟨join, s₃, hjoin, hx⟩ := bind_eq_ok hx
  obtain ⟨_, s₄, hbr, hx⟩ := bind_eq_ok hx
  obtain ⟨_, s₅, hblock, hx⟩ := bind_eq_ok hx
  obtain ⟨_, s₆, hmove, hx⟩ := bind_eq_ok hx
  cases hx
  obtain rfl := moveTo_eq_ok hmove
  obtain ⟨g₁, h₁, hl₁, hfit⟩ := hcond first fn g s h c s₁ hc
  obtain ⟨h₂, hl₂, hsc₂, hyes, -, hknown⟩ := h₁.blank (.refl fn g₁ s₁) hyes
  obtain ⟨h₃, hl₃, hsc₃, hjoin, habsent, hknown'⟩ := h₂.blank hl₂.toKeeps hjoin
  have hne := hyes.ne habsent
  have hl := hl₂.trans hl₃
  replace hyes := (hyes.keeps hl₃.toKeeps).1
  obtain ⟨g₄, h₄, hj₄⟩ := h₃.condBr (hfit.later hl h₁.function_isSome) hyes.empty (.inl rfl)
    hjoin.empty rfl hbr
  have hknown₄ : ∀ c, (∀ φ, g₁.known c φ) → ∀ φ, s₁.Here g₁ φ → g₄.known c φ := fun c hc φ hφ =>
    (hj₄.known c φ).mpr ⟨hc φ, fun _ => hl.here φ hφ⟩
  obtain ⟨g₅, h₅, hk₅, hsc₅, hdepth, hjoin₅, hknown₅, -⟩ := inBlock_surveys hp hbody h₁ h₄
    (hj₄.keeps _ _ hl.toKeeps (hyes.pair hjoin)) (hj₄.scopes.trans (hsc₃.trans hsc₂))
      (hyes.jumped hj₄) (hjoin.jumped hj₄) hne
    (hknown₄ yes hknown) (hknown₄ join hknown') hblock
  obtain ⟨h₆, hl₆⟩ := join_surveys h₁ h₅ hk₅ hsc₅ hjoin₅ hknown₅
    (hdepth.trans (hj₄.depth.trans hl.depth))
  exact ⟨g₅, h₆, hl₁.trans hl₆, trivial⟩

theorem ifElse_surveys {body otherwise : Lower α} (hcond : GivesFit framed cond)
    (hp : ∀ fn, Progress fn true body fun _ => True) (hbody : Surveys true body fun _ _ _ _ => True)
    (hp' : ∀ fn, Progress fn true otherwise fun _ => True)
    (hother : Surveys true otherwise fun _ _ _ _ => True) :
    GivesFit framed (ifElse cond body otherwise) := by
  intro first fn g s h x t hx
  obtain ⟨c, s₁, hc, hx⟩ := bind_eq_ok hx
  obtain ⟨yes, s₂, hyes, hx⟩ := bind_eq_ok hx
  obtain ⟨no, s₃, hno, hx⟩ := bind_eq_ok hx
  obtain ⟨join, s₄, hjoin, hx⟩ := bind_eq_ok hx
  obtain ⟨_, s₅, hbr, hx⟩ := bind_eq_ok hx
  obtain ⟨_, s₆, hblock, hx⟩ := bind_eq_ok hx
  obtain ⟨_, s₇, hblock', hx⟩ := bind_eq_ok hx
  obtain ⟨_, s₈, hmove, hx⟩ := bind_eq_ok hx
  cases hx
  obtain rfl := moveTo_eq_ok hmove
  obtain ⟨g₁, h₁, hl₁, hfit⟩ := hcond first fn g s h c s₁ hc
  obtain ⟨h₂, hl₂, hsc₂, hyes, -, hknown⟩ := h₁.blank (.refl fn g₁ s₁) hyes
  obtain ⟨h₃, hl₃, hsc₃, hno, habsent, hknown'⟩ := h₂.blank hl₂.toKeeps hno
  obtain ⟨h₄, hl₄, hsc₄, hjoin, habsent', hknown''⟩ := h₃.blank (hl₂.trans hl₃).toKeeps hjoin
  have hne := hyes.ne habsent
  replace hyes := (hyes.keeps hl₃.toKeeps).1
  have hne' := And.intro (hyes.ne habsent') (hno.ne habsent')
  have hl := (hl₂.trans hl₃).trans hl₄
  replace hyes := (hyes.keeps hl₄.toKeeps).1
  replace hno := (hno.keeps hl₄.toKeeps).1
  obtain ⟨g₅, h₅, hj₅⟩ := h₄.condBr (hfit.later hl h₁.function_isSome) hyes.empty (.inl rfl)
    hno.empty rfl hbr
  have hknown₅ : ∀ c, (∀ φ, g₁.known c φ) → ∀ φ, s₁.Here g₁ φ → g₅.known c φ := fun c hc φ hφ =>
    (hj₅.known c φ).mpr ⟨hc φ, fun _ => hl.here φ hφ⟩
  obtain ⟨g₆, h₆, hk₆, hsc₆, hdepth, hjoin₆, hknown₆, hkeep⟩ := inBlock_surveys hp hbody h₁ h₅
    (hj₅.keeps _ _ hl.toKeeps (hyes.pair hno)) (hj₅.scopes.trans (hsc₄.trans (hsc₃.trans hsc₂)))
      (hyes.jumped hj₅) (hjoin.jumped hj₅) hne'.1
    (hknown₅ yes hknown) (hknown₅ join hknown'') hblock
  obtain ⟨hno₆, hknownNo⟩ := hkeep no (hno.jumped hj₅) hne hne'.2.symm
  obtain ⟨g₇, h₇, hk₇, hsc₇, hdepth', hjoin₇, hknown₇, -⟩ :=
    inBlock_surveys hp' hother h₁ h₆ hk₆ hsc₆
    hno₆ hjoin₆ hne'.2 (fun φ hφ => hknownNo ▸ hknown₅ no hknown' φ hφ) hknown₆ hblock'
  obtain ⟨h₈, hl₈⟩ := join_surveys h₁ h₇ hk₇ hsc₇ hjoin₇ hknown₇
    (hdepth'.trans (hdepth.trans (hj₅.depth.trans hl.depth)))
  exact ⟨g₇, h₈, hl₁.trans hl₈, trivial⟩

theorem whileLoop_surveys {body : Lower α}
    (hp : ∀ fn framed, Progress fn framed (whileLoop cond body) fun _ => True)
    (hcond : GivesFit true cond) (hbody : Surveys true body fun _ _ _ _ => True) :
    GivesFit framed (whileLoop cond body) := by
  intro first fn g s h x t hx
  obtain ⟨hsteps, hadv, -⟩ := (hp fn framed s h.ready).ok hx
  obtain ⟨head, s₁, hhead, hx⟩ := bind_eq_ok hx
  obtain ⟨loop, s₂, hloop, hx⟩ := bind_eq_ok hx
  obtain ⟨after, s₃, hafter, hx⟩ := bind_eq_ok hx
  obtain ⟨_, s₄, hbr, hx⟩ := bind_eq_ok hx
  obtain ⟨_, s₅, hmove, hx⟩ := bind_eq_ok hx
  obtain ⟨_, s₆, hframe, hx⟩ := bind_eq_ok hx
  cases hx
  obtain rfl := moveTo_eq_ok hmove
  obtain ⟨h₁, hl₁, hsc₁, hhead, -, hknown⟩ := h.blank (.refl fn g s) hhead
  obtain ⟨h₂, hl₂, hsc₂, hloop, habsent, hknown'⟩ := h₁.blank hl₁.toKeeps hloop
  obtain ⟨h₃, hl₃, hsc₃, hafter, habsent', hknown''⟩ := h₂.blank (hl₁.trans hl₂).toKeeps hafter
  have hne := hhead.ne habsent
  replace hhead := (hhead.keeps hl₂.toKeeps).1
  have hne' := And.intro (hhead.ne habsent') (hloop.ne habsent')
  have hl := (hl₁.trans hl₂).trans hl₃
  replace hhead := (hhead.keeps hl₃.toKeeps).1
  replace hloop := (hloop.keeps hl₃.toKeeps).1
  obtain ⟨g₄, h₄, hj₄⟩ := h₃.br hhead.empty (.inl rfl) hbr
  -- In front of the condition nothing is known but what was done before the loop.
  obtain ⟨h₅, hhere₅⟩ := h₄.resume h (hhead.jumped hj₄)
    (hj₄.scopes.trans (hsc₃.trans (hsc₂.trans hsc₁)))
    (hj₄.globals.trans (globals_of_scopes h.charted h₃.charted (by rw [hsc₃, hsc₂, hsc₁])))
    (by rw [hj₄.reach]) fun φ hφ => (hj₄.known head φ).mpr ⟨hknown φ, fun _ => hl.here φ hφ⟩
  have hk₅ : Keeps fn g s g₄ (s₄.goTo (some head)) := (hj₄.keeps _ _ hl.toKeeps fun c hc => by
    obtain rfl : c = head := by simpa using hc
    exact hhead.absent).goTo hhead.absent
  have hloop₅ := (hloop.jumped hj₄).goTo hne
  have hafter₅ := (hafter.jumped hj₄).goTo hne'.1
  have hscopes₅ : (s₄.goTo (some head)).scopes = s.scopes :=
    hj₄.scopes.trans (hsc₃.trans (hsc₂.trans hsc₁))
  have hknown₅ : ∀ c, head ≠ c → (∀ φ, g.known c φ) → ∀ φ, g₄.known c φ := fun c hc hall φ =>
    (hj₄.known c φ).mpr ⟨hall φ, fun he => absurd (by simpa using he) (Ne.symm hc)⟩
  obtain ⟨f, u, hid, hrun, rfl⟩ := inFrame_eq_ok h₅.ready hframe
  obtain ⟨c, s₇, hc, hrun⟩ := bind_eq_ok hrun
  obtain ⟨_, s₈, hbr', hrun⟩ := bind_eq_ok hrun
  obtain ⟨_, s₉, hmove', hrun⟩ := bind_eq_ok hrun
  obtain rfl := moveTo_eq_ok hmove'
  obtain ⟨_, s₁₀, hrunBody, hrun⟩ := bind_eq_ok hrun
  obtain ⟨_, s₁₁, hclose, hrun⟩ := bind_eq_ok hrun
  obtain rfl := moveTo_eq_ok hrun
  obtain ⟨g₇, h₇, hl₇, hfit⟩ := hcond first fn g₄ _ (h₅.enter hid) c s₇ hc
  have hk₇ := hl₇.keeps_enter
  obtain ⟨hloop₇, hknownLoop⟩ := hloop₅.keeps hk₇
  obtain ⟨hafter₇, hknownAfter⟩ := hafter₅.keeps hk₇
  obtain ⟨g₈, h₈, hj₈⟩ := h₇.condBr hfit hloop₇.empty (.inl rfl) hafter₇.empty rfl hbr'
  have hknown₈ : ∀ φ, s₇.Here g₇ φ → g₈.known loop φ ∧ g₈.known after φ := fun φ hφ =>
    ⟨(hj₈.known loop φ).mpr ⟨hknownLoop ▸ hknown₅ loop hne hknown' φ, fun _ => hφ⟩,
      (hj₈.known after φ).mpr ⟨hknownAfter ▸ hknown₅ after hne'.1 hknown'' φ, fun _ => hφ⟩⟩
  obtain ⟨h₉, hhere₉⟩ := h₈.resume h₇ (hloop₇.jumped hj₈) hj₈.scopes hj₈.globals (by rw [hj₈.reach])
    fun φ hφ => (hknown₈ φ hφ).1
  have hk₉ : Keeps fn g s g₈ (s₈.goTo (some loop)) :=
    (hj₈.keeps _ _ (hk₅.trans hk₇) (hloop.pair hafter)).goTo hloop.absent
  obtain ⟨g₁₀, h₁₀, hl₁₀, -⟩ := hbody first fn g₈ _ h₉ _ s₁₀ hrunBody
  obtain ⟨hafter₁₀, hknownAfter'⟩ := ((hafter₇.jumped hj₈).goTo hne'.2).keeps hl₁₀.toKeeps
  obtain ⟨z, hbr''⟩ := closeBlock_eq_ok h₁₀.site hclose
  -- The head of the loop has code by now; no more is known of it than behind the body.
  have hheadAt : ∃ e, (s₄.goTo (some head)).block? head = some e := ⟨_, (hhead.jumped hj₄).empty⟩
  obtain ⟨e₀, he₀⟩ := hheadAt
  obtain ⟨e₇, he₇, -⟩ := hk₇.isSome he₀
  obtain ⟨e₈, he₈⟩ := hj₈.kept head e₇ he₇
  obtain ⟨e₁₀, he₁₀, -⟩ := hl₁₀.isSome (show (s₈.goTo (some loop)).block? head = some e₈ from he₈)
  obtain ⟨g₁₁, h₁₁, hj₁₁⟩ := h₁₀.br he₁₀ (.inr fun φ hφ => by
    rw [hl₁₀.known head e₈ he₈, hj₈.known] at hφ
    have hφ₇ := hφ.1
    rw [hk₇.known head e₀ he₀] at hφ₇
    exact hl₁₀.here φ ((hhere₉ φ).mpr (hknown₈ φ (hl₇.here φ ((hhere₅ φ).mpr hφ₇))).1)) hbr''
  have hk₁₁ : Keeps fn g s g₁₁ s₁₁ := hj₁₁.keeps _ _ (hk₉.trans hl₁₀.toKeeps) fun c hc => by
    obtain rfl : c = head := by simpa using hc
    exact hhead.absent
  obtain ⟨h₁₂, hsite, hhere⟩ := h₁₁.goTo (hafter₁₀.jumped hj₁₁).empty rfl hafter.fn
  have hext : (s.scopes.enter f).Extends (s₁₁.goTo (some after)).scopes := by
    have he₇ : (s.scopes.enter f).Extends s₇.scopes := by
      rw [← hscopes₅]
      exact hl₇.scopes
    have he₁₀ : s₇.scopes.Extends s₁₀.scopes := by
      rw [← hj₈.scopes]
      exact hl₁₀.scopes
    exact he₇.trans (hj₁₁.scopes ▸ he₁₀)
  obtain ⟨hsur, hlater⟩ := h.leave h₁₂ hsite (hk₁₁.goTo hafter.absent) hext (fun φ hφ => by
    refine (hhere φ).mpr ((hj₁₁.known after φ).mpr ⟨?_, fun he => ?_⟩)
    · rw [hknownAfter']
      refine (hknown₈ φ (hl₇.here φ ((hhere₅ φ).mpr ?_))).2
      exact (hj₄.known head φ).mpr ⟨hknown φ, fun _ => hl.here φ hφ⟩
    · exact absurd (by simpa using he) (Ne.symm hne'.1)) (h.ready.advance hsteps hadv) hadv.depth
  exact ⟨g₁₁, hsur, hlater, trivial⟩

theorem forLoop_surveys {var : String} {start step : Lower Operand} {body : Lower α}
    (hp : ∀ fn framed, Progress fn framed (forLoop pos var start body step cond) fun _ => True)
    (hstart : GivesFit framed start) (hbody : Surveys true body fun _ _ _ _ => True)
    (hstep : GivesFit true step) (hcond : GivesFit true cond) :
    GivesFit framed (forLoop pos var start body step cond) := by
  intro first fn g₀ s₀ h₀ x t hx
  obtain ⟨hsteps, hadv, -⟩ := (hp fn framed s₀ h₀.ready).ok hx
  obtain ⟨v, s, hv, hx⟩ := bind_eq_ok hx
  obtain ⟨_, t', hframe, hx⟩ := bind_eq_ok hx
  cases hx
  obtain ⟨g, h, hl, hfit⟩ := hstart first fn g₀ s₀ h₀ v s hv
  obtain ⟨f, u, hid, hrun, rfl⟩ := inFrame_eq_ok h.ready hframe
  obtain ⟨slot, s₁, hnew, hrun⟩ := bind_eq_ok hrun
  obtain ⟨_, s₂, hstore, hrun⟩ := bind_eq_ok hrun
  obtain ⟨loop, s₃, hloop, hrun⟩ := bind_eq_ok hrun
  obtain ⟨after, s₄, hafter, hrun⟩ := bind_eq_ok hrun
  obtain ⟨_, s₅, hbr, hrun⟩ := bind_eq_ok hrun
  obtain ⟨_, s₆, hmove, hrun⟩ := bind_eq_ok hrun
  obtain rfl := moveTo_eq_ok hmove
  obtain ⟨_, s₇, hrunBody, hrun⟩ := bind_eq_ok hrun
  obtain ⟨increment, s₈, hincrement, hrun⟩ := bind_eq_ok hrun
  obtain ⟨c, s₉, hc, hrun⟩ := bind_eq_ok hrun
  obtain ⟨current, s₁₀, hcurrent, hrun⟩ := bind_eq_ok hrun
  obtain ⟨next, s₁₁, hnext, hrun⟩ := bind_eq_ok hrun
  obtain ⟨_, s₁₂, hstore', hrun⟩ := bind_eq_ok hrun
  obtain ⟨_, s₁₃, hbr', hrun⟩ := bind_eq_ok hrun
  obtain rfl := moveTo_eq_ok hrun
  -- The variable is stored in front of the loop.
  have hin := h.enter hid
  obtain ⟨h₂, hl₂, hholds, hslot, hdepth⟩ := hin.declare (fun hi => absurd hi (hin.ready.frame rfl))
    (hfit.enter f) hnew hstore
  have hk₂ := hl₂.keeps_enter
  obtain ⟨h₃, hl₃, hsc₃, hloop, habsent₂, hknown⟩ := h₂.blank hk₂ hloop
  obtain ⟨h₄, hl₄, hsc₄, hafter, habsent, hknown'⟩ := h₃.blank (hk₂.trans hl₃.toKeeps) hafter
  have hne := hloop.ne habsent
  replace hloop := (hloop.keeps hl₄.toKeeps).1
  have hl₂₄ := hl₃.trans hl₄
  have hk₄ := hk₂.trans hl₂₄.toKeeps
  obtain ⟨g₅, h₅, hj₅⟩ := h₄.br hloop.empty (.inl rfl) hbr
  have hknown₅ : ∀ φ, s₂.Here g φ → g₅.known loop φ := fun φ hφ =>
    (hj₅.known loop φ).mpr ⟨hknown φ, fun _ => hl₂₄.here φ hφ⟩
  have hscopes₅ : s₅.scopes = s₂.scopes := hj₅.scopes.trans (hsc₄.trans hsc₃)
  obtain ⟨h₆, hhere₆⟩ := h₅.resume h₂ (hloop.jumped hj₅) hscopes₅
    (globals_of_scopes h₂.charted h₅.charted (by rw [hscopes₅])) (by rw [hj₅.reach]) hknown₅
  have hk₆ : Keeps fn g s₂ g₅ (s₅.goTo (some loop)) := (hj₅.keeps _ _ hl₂₄.toKeeps fun c hc => by
    obtain rfl : c = loop := by simpa using hc
    exact habsent₂).goTo habsent₂
  have hreads : Reads g₅ (s₅.goTo (some loop)) fn slot :=
    ⟨hholds.keeps hk₆ h₂.function_isSome, fun _ => (hhere₆ _).mpr (hknown₅ _ hslot)⟩
  obtain ⟨g₇, h₇, hl₇, -⟩ := hbody first fn g₅ _ h₆ _ s₇ hrunBody
  obtain ⟨g₈, h₈, hl₈, hfit₈⟩ := hstep first fn g₇ _ h₇ _ s₈ hincrement
  obtain ⟨g₉, h₉, hl₉, hfit₉⟩ := hcond first fn g₈ _ h₈ _ s₉ hc
  have hl₆₉ := (hl₇.trans hl₈).trans hl₉
  have hreads₉ := hreads.later hl₆₉ h₆.function_isSome
  obtain ⟨h₁₀, hl₁₀, hfit₁₀⟩ := h₉.load hreads₉ hcurrent
  have hreads₁₀ := hreads₉.later hl₁₀ h₉.function_isSome
  obtain ⟨heq, hoffered, hterm, hty⟩ := @offered_arithmetic .add rfl current increment
  rw [heq] at hnext
  have hfit₁₀' := (hfit₈.later hl₉ h₈.function_isSome).later hl₁₀ h₉.function_isSome
  obtain ⟨h₁₁, hl₁₁, hfit₁₁⟩ := h₁₀.compute hoffered hterm rfl hty.symm rfl rfl
    (by simp [Draft.arithmetic, hfit₁₀, hfit₁₀']) hnext
  have hreads₁₁ := hreads₁₀.later hl₁₁ h₁₀.function_isSome
  have hdepth₁₁ : s₁₁.depth = s₂.depth :=
    ((hl₆₉.trans hl₁₀).trans hl₁₁).depth.trans (hj₅.depth.trans hl₂₄.depth)
  obtain ⟨h₁₂, hl₁₂, hsc₁₂, -⟩ := h₁₁.store hreads₁₁.holds hfit₁₁
    (fun hh => hdepth₁₁.trans (hdepth hh)) hstore'
  have hl₆₁₂ := ((hl₆₉.trans hl₁₀).trans hl₁₁).trans hl₁₂
  have hfit₁₂ := ((hfit₉.later hl₁₀ h₉.function_isSome).later hl₁₁ h₁₀.function_isSome).later hl₁₂
    h₁₁.function_isSome
  obtain ⟨e, he, -⟩ := hl₆₁₂.isSome (hloop.jumped hj₅).empty
  obtain ⟨hafter₁₂, hknownAfter⟩ := ((hafter.jumped hj₅).goTo hne).keeps hl₆₁₂.toKeeps
  obtain ⟨g₁₃, h₁₃, hj₁₃⟩ := h₁₂.condBr hfit₁₂ he (.inr fun φ hφ => by
    rw [hl₆₁₂.known loop _ (hloop.jumped hj₅).empty] at hφ
    exact hl₆₁₂.here φ ((hhere₆ φ).mpr hφ)) hafter₁₂.empty rfl hbr'
  have hk₁₃ : Keeps fn g s g₁₃ s₁₃ :=
    hj₁₃.keeps _ _ ((hk₂.trans hk₆).trans hl₆₁₂.toKeeps) (hloop.pair hafter)
  obtain ⟨h₁₄, hsite, hhere⟩ := h₁₃.goTo (hafter₁₂.jumped hj₁₃).empty rfl hafter.fn
  have hext : (s.scopes.enter f).Extends (s₁₃.goTo (some after)).scopes := by
    have he₂ : s₂.scopes.Extends s₁₂.scopes := by
      rw [← hscopes₅]
      exact hl₆₁₂.scopes
    exact hl₂.scopes.trans (show s₂.scopes.Extends s₁₃.scopes from hj₁₃.scopes ▸ he₂)
  obtain ⟨hsur, hlater⟩ := h.leave h₁₄ hsite (hk₁₃.goTo hafter.absent) hext (fun φ hφ => by
    have hφ₂ := hl₂.here φ hφ
    refine (hhere φ).mpr ((hj₁₃.known after φ).mpr ⟨?_, fun _ => ?_⟩)
    · rw [hknownAfter]
      exact (hj₅.known after φ).mpr ⟨hknown' φ, fun he => absurd (by simpa using he) (Ne.symm hne)⟩
    · exact hl₆₁₂.here φ ((hhere₆ φ).mpr (hknown₅ φ hφ₂)))
    (h₀.ready.advance hsteps hadv) (hadv.depth.trans hl.depth.symm)
  exact ⟨g₁₃, hsur, hl.trans hlater, trivial⟩

theorem ret_surveys {value : Lower Operand} (hvalue : GivesFit framed value) :
    GivesFit framed (ret pos value) := by
  intro first fn g s h x t hrun
  obtain ⟨f, s₁, hf, hrest⟩ := bind_eq_ok hrun
  obtain ⟨f', hf', -⟩ := currentFunction_run h.ready
  obtain ⟨rfl, rfl⟩ := EStateM.Result.ok.inj (hf.symm.trans hf')
  obtain ⟨v, s₂, hv, hx⟩ := bind_eq_ok hrest
  dsimp only at hx
  split at hx
  · exact absurd hx reject_bind_ne_ok
  · obtain ⟨_, s₃, hret, hx⟩ := bind_eq_ok hx
    obtain ⟨after, s₄, hafter, hx⟩ := bind_eq_ok hx
    obtain ⟨_, s₅, hmove, hx⟩ := bind_eq_ok hx
    obtain ⟨rfl, rfl⟩ := EStateM.Result.ok.inj hx
    obtain rfl := moveTo_eq_ok hmove
    obtain ⟨g₂, h₂, hl₂, hfit⟩ := hvalue first fn g s₁ h v s₂ hv
    obtain ⟨g₃, h₃, hj₃⟩ := h₂.ret hfit hret
    have hk₃ := hj₃.keeps _ _ (.refl fn g₂ s₂) (fun c hc => by cases hc)
    obtain ⟨r, f₀, b, hat⟩ := h₂.site
    obtain ⟨b', hb'⟩ := hj₃.kept r b hat.block?_eq
    obtain ⟨h₄, hk₄, hadv₄, hscopes, hglobals, -, -, hnone, hnew, hfn, hknown⟩ :=
      h₃.createBlock (hj₃.point.trans hat.point) hb' hafter
    obtain ⟨h₅, hsite, hhere⟩ := h₄.goTo hnew rfl hfn
    have hscopes' : s₄.scopes = s₂.scopes := hscopes.trans hj₃.scopes
    have habsent : s₂.block? after = none := by
      cases hb : s₂.block? after with
      | none => rfl
      | some e =>
        obtain ⟨e', he'⟩ := hj₃.kept after e hb
        rw [hnone] at he'
        cases he'
    have hlater : Later fn g₂ s₂ g₃ (s₄.goTo (some after)) :=
      { (hk₃.trans hk₄).goTo habsent with
        fn := h₅.ready.inside.trans h₂.ready.inside.symm
        scopes := by
          change s₂.scopes.Extends s₄.scopes
          rw [hscopes']
          exact .refl _
        depth := hadv₄.depth.trans hj₃.depth
        here := fun φ _ => (hhere φ).mpr (hknown φ) }
    refine ⟨g₃, h₅.surveyed h₂ hsite hscopes' (hglobals.trans hj₃.globals) (by rw [hj₃.reach])
      hlater.here, hl₂.trans hlater, hfit.later hlater h₂.function_isSome⟩

end Lower

end RealScript
