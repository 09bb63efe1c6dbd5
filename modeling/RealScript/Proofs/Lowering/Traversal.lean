import RealScript.Proofs.Lowering.Detours
import RealScript.Proofs.Lowering.Numbers
import RealScript.Proofs.Lowering.Surveying

/-! # Lowering a tree keeps up a chart

A function gets a chart of its own, and the code around it keeps the one it has. With this the
induction over trees puts the constructs together.
-/

namespace RealScript

variable {params : List String} {pos : Position} {name : String} {y : Unit}

def Chart.declare (g : Chart) (k n : Nat) : Chart :=
  { g with reach := fun j => if j = k then n else g.reach j }

namespace Lowering

variable {first fn : Nat} {framed : Bool} {g g' : Chart} {s t u : Lowering} {f : Function}

theorem Charted.ref_lt (hc : s.Charted first g) {r : BlockRef} {b : Block} {i : Instr}
    {ref : FuncRef}
    (hfirst : first ≤ r.fn) (hb : s.block? r = some b) (hi : i ∈ b.instrs)
    (href : ref ∈ i.toOperation.refs) : ref.id < s.module.store.size := by
  obtain ⟨f, hf, hb⟩ := Option.bind_eq_some_iff.mp hb
  obtain ⟨⟨f', hf', -⟩, -⟩ := (hc.legal r f b hfirst hf hb i hi).refs ref href
  exact lt_size_of_function? hf'

theorem Charted.push (hc : s.Charted first g) (hf : ∀ c e, f.block? c = some e → e.instrs = [])
    (p : Option BlockRef) :
    (s.push f p).Charted first (g.declare s.module.store.size s.module.globals.length) := by
  have hblock : ∀ c e, (s.push f p).block? c = some e → e.instrs ≠ [] →
      s.block? c = some e ∧ c.fn ≠ s.module.store.size := by
    intro c e he hne
    rw [block?_push] at he
    split at he
    · exact absurd (hf c e he) hne
    · exact ⟨he, ‹_›⟩
  have hrefs : ∀ k h, s.module.function? k = some h → ∃ h',
      (s.push f p).module.function? k = some h' ∧ h'.ref = h.ref := by
    intro k h hk
    refine ⟨h, ?_, rfl⟩
    rw [function?_push, if_neg (Nat.ne_of_lt (lt_size_of_function? hk)), hk]
  refine
    { need := fun c e hfirst he pre i post hi φ hφ => ?_
      edge := fun c e c' hfirst he hsucc => ?_
      entry := hc.entry
      fresh := fun c hb hi => hc.fresh c ?_ hi
      legal := fun c f₁ e hfirst hf₁ he i hi => ?_
      reach := fun k h hk => ?_
      globals := hc.globals
      homes := hc.homes
      locals := fun frame hframe x hx => ?_ }
  · obtain ⟨hold, hne⟩ := hblock c e he (by simp [hi])
    refine hc.need c e hfirst hold pre i post hi φ ?_
    -- What is called from code that was there was there as well.
    have hreach : ∀ k, k < s.module.store.size →
        (g.declare s.module.store.size s.module.globals.length).reach k = g.reach k := fun k hk =>
      if_neg (Nat.ne_of_lt hk)
    have hself : (g.declare s.module.store.size s.module.globals.length).reach c.fn =
      g.reach c.fn :=
      if_neg hne
    have hmem : i ∈ e.instrs := by rw [hi]; simp
    cases hφ with
    | result hr => exact .result hr
    | slot ho hs hr => exact .slot ho hs fun hh => hself ▸ hr hh
    | function hr hk hlt =>
      refine .function hr (hself ▸ hk) ?_
      rwa [hreach _ (hc.ref_lt hfirst hold hmem hr)] at hlt
  · have hne : e.instrs ≠ [] := by
      intro hn
      simp [Block.successors, Block.terminator?, hn] at hsucc
    exact hc.edge c e c' hfirst (hblock c e he hne).1 hsucc
  · rw [block?_push] at hb
    split at hb
    · have hnone : s.module.function? c.fn = none := by
        cases hk : s.module.function? c.fn with
        | none => rfl
        | some h => exact absurd ‹c.fn = _› (Nat.ne_of_lt (lt_size_of_function? hk))
      rw [block?, hnone]
      rfl
    · exact hb
  · obtain ⟨hold, hne⟩ := hblock c e (by rw [block?, hf₁]; exact he) (List.ne_nil_of_mem hi)
    rw [function?_push, if_neg hne] at hf₁
    exact (hc.legal c f₁ e hfirst hf₁ he i hi).mono List.prefix_rfl hrefs rfl List.prefix_rfl
  · rw [function?_push] at hk
    split at hk
    · subst k
      exact Nat.le_of_eq (if_pos rfl)
    · rw [show (g.declare s.module.store.size s.module.globals.length).reach k = g.reach k from
        if_neg ‹_›]
      exact hc.reach k h hk
  · obtain ⟨h, hh, hhome, hslot⟩ := hc.locals frame hframe x hx
    refine ⟨h, ?_, hhome, hslot⟩
    rw [function?_push, if_neg (Nat.ne_of_lt (lt_size_of_function? hh)), hh]

def opened (s : Lowering) (name : String) (params : List String) : Lowering :=
  { s.push (.opened s.module.store.size name params) (some ⟨s.module.store.size, 0, "entry"⟩) with
    depth := s.depth + 1
    scopes := s.scopes.enter (Function.opened s.module.store.size name params).ref }

theorem block?_opened {id : Nat} {c : BlockRef} {e : Block}
    (h : (Function.opened id name params).block? c = some e) : e.instrs = [] := by
  have hmem := Function.mem_of_block? h
  obtain rfl : e = _ := List.mem_singleton.mp hmem
  rfl

theorem at_opened (s : Lowering) (name : String) (params : List String) :
    (s.push (.opened s.module.store.size name params) (some ⟨s.module.store.size, 0, "entry"⟩)).At
      ⟨s.module.store.size, 0, "entry"⟩ (.opened s.module.store.size name params)
      { ref := ⟨s.module.store.size, 0, "entry"⟩ } where
  point := rfl
  function := by rw [function?_push, if_pos rfl]
  block := by simp [Function.opened, Function.addBlock, Function.block?, Function.id]
  open_ := rfl

section

variable (h : Surveyed first fn framed g s)

include h

theorem Surveyed.opened {name : String} {params : List String}
    (hready : (s.opened name params).Ready s.module.store.size true) :
    Surveyed first s.module.store.size true
      (g.declare s.module.store.size s.module.globals.length) (s.opened name params) where
  ready := hready
  charted := by
    have hpush := h.charted.push (f := .opened s.module.store.size name params)
      (fun _ _ => block?_opened) (some ⟨s.module.store.size, 0, "entry"⟩)
    refine hpush.congr rfl rfl fun frame hframe x hx => ?_
    rcases List.mem_cons.mp hframe with rfl | hframe
    · cases hx
    · exact hpush.locals frame hframe x hx
  first_le := by
    obtain ⟨f, hf⟩ := Option.isSome_iff_exists.mp h.function_isSome
    exact Nat.le_of_lt (Nat.lt_of_le_of_lt h.first_le (lt_size_of_function? hf))
  site := site_of_builder ⟨_, _, _, at_opened s name params⟩ rfl
  stored frame hframe ho x hx := by
    rcases List.mem_cons.mp hframe with rfl | hframe
    · cases hx
    · obtain ⟨f, hf, -⟩ := h.charted.locals frame hframe x hx
      exact absurd ho (Nat.ne_of_lt (lt_size_of_function? hf))
  own k hk hlt := by
    have hreach : (g.declare s.module.store.size s.module.globals.length).reach
      s.module.store.size =
        s.module.globals.length := if_pos rfl
    rw [hreach] at hk
    exact absurd hlt (Nat.not_lt.mpr hk)
  entry hdepth := absurd hdepth (Nat.succ_ne_zero s.depth)

theorem Surveyed.beside (hready : t.Ready fn framed)
    (hcharted : t.Charted first g') (hpoint : t.builder.point = s.builder.point)
    (hscopes : t.scopes = s.scopes) (hdepth : t.depth = s.depth)
    (hfunction : ∀ k f, s.module.function? k = some f → t.module.function? k = some f)
    (hknown : ∀ r b, s.block? r = some b → g'.known r = g.known r)
    (hreach : ∀ k f, s.module.function? k = some f → g'.reach k = g.reach k)
    (hnew : ∀ k f, s.module.function? k = none → t.module.function? k = some f → f.Made) :
    Surveyed first fn framed g' t ∧ Later fn g s g' t := by
  have hblock : ∀ r b, s.block? r = some b → t.block? r = some b := by
    intro r b hb
    obtain ⟨f, hf, hbf⟩ := Option.bind_eq_some_iff.mp hb
    rw [block?, hfunction _ f hf]
    exact hbf
  have hmodGlobals : t.module.globals = s.module.globals :=
    globals_of_scopes h.charted hcharted (by rw [hscopes])
  have hhere : ∀ φ, s.Here g φ → t.Here g' φ := by
    rintro φ ⟨r, b, hp, hb, hφ⟩
    refine ⟨r, b, hpoint.trans hp, hblock r b hb, hφ.imp_left fun hkn => ?_⟩
    obtain ⟨f, -, hbf⟩ := Option.bind_eq_some_iff.mp hb
    rw [Function.ref_of_block? hbf] at hkn ⊢
    rw [hknown r b hb]
    exact hkn
  obtain ⟨f, hf⟩ := Option.isSome_iff_exists.mp h.function_isSome
  obtain ⟨r, f₀, b, hat⟩ := h.site
  refine ⟨Drawn.surveyed ⟨hready, hcharted, h.first_le, fun hd f' hf' => ?_⟩ h
    ⟨r, f₀, b, hpoint.trans hat.point, hfunction _ f₀ hat.function, hat.block, hat.open_⟩ hscopes
    hmodGlobals (hreach fn f hf) hhere, ?_⟩
  · cases (hfunction fn f hf).symm.trans hf'
    exact h.entry (hdepth ▸ hd) f hf
  · exact
      { blocks := fun r b hb _ => hblock r b hb
        point := fun r hr => .inl (hpoint ▸ hr)
        known := hknown
        reach := hreach
        function := fun k f hf => ⟨f, hfunction k f hf, .refl f⟩
        others := fun k f _ hf => hfunction k f hf
        new := fun k f _ => hnew k f
        globals := hmodGlobals ▸ List.prefix_rfl
        fn := hready.inside.trans h.ready.inside.symm
        scopes := hscopes ▸ .refl _
        depth := hdepth
        here := hhere }

theorem Surveyed.outward (hu : u.Charted first g') (hk : Keeps s.module.store.size
      (g.declare s.module.store.size s.module.globals.length) (s.opened name params) g' u)
    (hdone : ∀ f, u.module.function? s.module.store.size = some f → f.Made)
    (hready : t.Ready fn framed) (hmodule : t.module = u.module)
    (hpoint : t.builder.point = s.builder.point) (hscopes : t.scopes = s.scopes)
    (hglobals : t.scopes.globals = u.scopes.globals) (hdepth : t.depth = s.depth) :
    Surveyed first fn framed g' t ∧ Later fn g s g' t := by
  have hold : ∀ k f, s.module.function? k = some f → k ≠ s.module.store.size ∧
      (s.opened name params).module.function? k = some f := by
    intro k f hf
    have hne := Nat.ne_of_lt (lt_size_of_function? hf)
    exact ⟨hne, (function?_push ..).trans (by rw [if_neg hne, hf])⟩
  have hfunction : ∀ k f, s.module.function? k = some f → t.module.function? k = some f := by
    intro k f hf
    rw [hmodule]
    exact hk.others k f (hold k f hf).1 (hold k f hf).2
  have hcharted : t.Charted first g' := by
    refine hu.congr hmodule hglobals fun frame hframe x hx => ?_
    rw [hscopes] at hframe
    obtain ⟨f, hf, hhome, hslot⟩ := h.charted.locals frame hframe x hx
    exact ⟨f, hmodule ▸ hfunction _ f hf, hhome, hslot⟩
  refine h.beside hready hcharted hpoint hscopes hdepth hfunction (fun r b hb => ?_)
    (fun k f hf => ?_)
    fun k f hn hf => ?_
  · obtain ⟨f, hf, hbf⟩ := Option.bind_eq_some_iff.mp hb
    exact hk.known r b (by rw [block?, (hold _ f hf).2]; exact hbf)
  · rw [hk.reach k f (hold k f hf).2]
    exact if_neg (hold k f hf).1
  · rw [hmodule] at hf
    by_cases hsize : k = s.module.store.size
    · subst hsize
      exact hdone f hf
    · exact hk.new k f hsize ((function?_push ..).trans (by rw [if_neg hsize, hn])) hf

theorem Surveyed.host {name : String} {params : List String} (hname : IsName name)
    (hready : (s.push (.host s.module.store.size name params) s.builder.point).Ready fn framed) :
    Surveyed first fn framed (g.declare s.module.store.size s.module.globals.length)
        (s.push (.host s.module.store.size name params) s.builder.point) ∧
      Later fn g s (g.declare s.module.store.size s.module.globals.length)
        (s.push (.host s.module.store.size name params) s.builder.point) := by
  refine h.beside hready (h.charted.push (fun c e he => ?_) _) rfl rfl rfl (fun k f hf => ?_)
    (fun _ _ _ => rfl) (fun k f hf => if_neg (Nat.ne_of_lt (lt_size_of_function? hf)))
      fun k f hn hf => ?_
  · cases he
  · rw [function?_push, if_neg (Nat.ne_of_lt (lt_size_of_function? hf)), hf]
  · rw [function?_push] at hf
    split at hf
    · cases hf
      exact ⟨⟨.inl hname, by simp [Function.host], rfl⟩, .inl rfl, .inl rfl⟩
    · rw [hn] at hf
      cases hf

theorem Surveyed.count : Surveyed first fn framed g { s with nextFunc := s.nextFunc + 1 } ∧
      Later fn g s g { s with nextFunc := s.nextFunc + 1 } :=
  h.beside (h.ready.advance (.single .count) ⟨rfl, .refl _, rfl⟩)
    (h.charted.congr rfl rfl h.charted.locals)
    rfl rfl rfl (fun _ _ hf => hf) (fun _ _ _ => rfl) (fun _ _ _ => rfl) fun k f hn hf => by
      change s.module.function? k = some f at hf
      rw [hn] at hf
      cases hf

end

end Lowering

namespace Lower

open Stateful Lowering

variable {α : Type} {first fn : Nat} {framed : Bool} {g : Chart} {s t : Lowering}

theorem bindParams_surveys {f : FuncRef} {index : Nat} {names : List String}
    (h : Surveyed first fn true g s)
    (hparams : ∀ f, s.module.function? fn = some f → ∀ i, index ≤ i → i < index + names.length →
      f.ref.params[i]? = some .real) (hx : bindParams pos f index names s = .ok y t) :
    Surveyed first fn true g t ∧ Later fn g s g t := by
  induction names generalizing index s with
  | nil =>
    obtain ⟨-, rfl⟩ := EStateM.Result.ok.inj hx
    exact ⟨h, .refl fn g s⟩
  | cons name names ih =>
    obtain ⟨slot, s₁, hnew, hx⟩ := bind_eq_ok hx
    obtain ⟨_, s₂, hstore, hx⟩ := bind_eq_ok hx
    have hfit : s.Fit g fn (.param f.id index name .real) := fun f' hf' =>
      hparams f' hf' index (Nat.le_refl index) (by simp)
    obtain ⟨h₂, hl₂, -⟩ := h.declare (fun hi => absurd hi (h.ready.frame rfl)) hfit hnew hstore
    obtain ⟨h₃, hl₃⟩ := ih h₂ (fun f' hf' i hi hlt => by
      obtain ⟨f₀, hf₀⟩ := Option.isSome_iff_exists.mp h.function_isSome
      obtain ⟨f₂, hf₂, href⟩ := hl₂.refs fn f₀ hf₀
      cases hf₂.symm.trans hf'
      rw [href]
      exact hparams f₀ hf₀ i (Nat.le_of_succ_le hi) (by simp only [List.length_cons]; omega)) hx
    exact ⟨h₃, hl₂.trans hl₃⟩

theorem closeFunction_eq_ok (h : ∃ r f b, s.At r f b) (hx : closeFunction s = .ok y t) :
    ∃ x, build (.ret (some (.real 0))) s = .ok x t := by
  obtain ⟨r, f, b, hat⟩ := h
  unfold closeFunction at hx
  rw [bind_run, get_run] at hx
  simp only [hat.not_terminated, Bool.false_eq_true, if_false] at hx
  obtain ⟨x, s₁, hret, hp⟩ := bind_eq_ok hx
  obtain ⟨-, rfl⟩ := EStateM.Result.ok.inj hp
  exact ⟨x, hret⟩

theorem verify_eq_ok {f : FuncRef} (hx : verify pos f s = .ok y t) :
    t = s ∧ ∀ F, s.module.function? f.id = some F → F.verify = .ok () := by
  unfold verify at hx
  rw [bind_run, get_run] at hx
  dsimp only at hx
  cases hf : s.module.function? f.id with
  | none =>
    rw [hf] at hx
    obtain ⟨-, rfl⟩ := EStateM.Result.ok.inj hx
    exact ⟨rfl, nofun⟩
  | some F =>
    rw [hf] at hx
    dsimp only [Option.map_some] at hx
    cases hv : F.verify with
    | error e =>
      rw [hv] at hx
      cases hx
    | ok u =>
      rw [hv] at hx
      obtain ⟨-, rfl⟩ := EStateM.Result.ok.inj hx
      exact ⟨rfl, fun F' hF' => Option.some.inj hF' ▸ hv⟩

/-! ## Functions -/

theorem inFunction_surveys {body : Lower α}
    (hp : ∀ fn, Progress fn true body fun _ => True) (hbody : Surveys true body fun _ _ _ _ => True)
    (h : Surveyed first fn framed g s) (hname : Plain name → s.scopes.globals.lookup name = none)
    (hnameable : Nameable name) {f : FuncRef} (hx : inFunction pos name params body s = .ok f t) :
    ∃ g', Surveyed first fn framed g' t ∧ Later fn g s g' t ∧ f.name = name ∧
      ∃ F, t.module.function? f.id = some F ∧ F.ref = f := by
  obtain ⟨hsteps, hadv⟩ := (inFunction_goes h.ready hname hp).ok hx
  unfold inFunction at hx
  rw [bind_run, get_run] at hx
  obtain ⟨f', s₁, hdefine, hrest⟩ := bind_eq_ok hx
  obtain ⟨hfree, rfl, rfl⟩ := define_eq_ok h.ready.orderly hdefine
  obtain ⟨hready, hcurrent⟩ := ready_opened h.ready.orderly (@Step.define _ _ params hfree hname)
  obtain ⟨_, s₂, hdeepen, hrest⟩ := bind_eq_ok hrest
  obtain ⟨-, rfl⟩ := EStateM.Result.ok.inj hdeepen
  obtain ⟨_, s₃, hframe, hrest⟩ := bind_eq_ok hrest
  obtain ⟨_, s₄, hback, hrest⟩ := bind_eq_ok hrest
  cases hrest
  obtain ⟨-, rfl⟩ := EStateM.Result.ok.inj hback
  obtain ⟨u, hrun, rfl⟩ := inFrame_run_eq_ok hcurrent hframe
  obtain ⟨_, s₅, hparams, hrun⟩ := bind_eq_ok hrun
  obtain ⟨_, s₆, hrunBody, hrun⟩ := bind_eq_ok hrun
  obtain ⟨_, s₇, hclose, hverify⟩ := bind_eq_ok hrun
  -- The body is charted as part of the new function.
  have hopened := @Surveyed.opened _ _ _ _ _ h name params hready
  obtain ⟨h₅, hl₅⟩ := bindParams_surveys hopened (fun f hf i _ hi => by
    cases ((function?_push ..).trans (if_pos rfl)).symm.trans hf
    simp [Function.opened, Function.addBlock, show i < params.length by omega]) hparams
  obtain ⟨g₆, h₆, hl₆, -⟩ := hbody first _ _ _ h₅ _ _ hrunBody
  obtain ⟨_, hret⟩ := closeFunction_eq_ok h₆.site hclose
  obtain ⟨g₇, h₇, hj₇⟩ := h₆.ret (v := .real 0) trivial hret
  obtain ⟨rfl, hdone⟩ := verify_eq_ok hverify
  have hk := hj₇.keeps _ _ (hl₅.trans hl₆).toKeeps (fun c hc => by cases hc)
  have hext : (s.scopes.enter (Function.opened s.module.store.size name params).ref).Extends
      u.scopes := hj₇.scopes ▸ (hl₅.trans hl₆).scopes
  have hdepth : u.depth = s.depth + 1 := hj₇.depth.trans (hl₅.trans hl₆).depth
  have hmade : ∀ F, u.module.function? s.module.store.size = some F → F.Made := by
    intro F hF
    obtain ⟨F', hF', hg⟩ := hk.function s.module.store.size _
      ((function?_push ..).trans (if_pos rfl))
    obtain rfl := Option.some.inj (hF'.symm.trans hF)
    obtain ⟨b, hb, hb'⟩ := hg.blocks.head? (b := { ref := ⟨s.module.store.size, 0, "entry"⟩ }) rfl
    refine ⟨⟨by rw [hg.name]; exact hnameable, ?_, by rw [hg.ref]; rfl⟩, .inr (hdone F' hF),
      .inr ⟨b, hb, by rw [hb'.1, hg.id]; rfl⟩⟩
    rw [hg.ref]
    simp [Function.opened, Function.addBlock]
  obtain ⟨hsur, hlater⟩ := h.outward h₇.charted hk hmade (h.ready.advance hsteps hadv) rfl
    rfl hext.leave
    rfl (by dsimp only; omega)
  obtain ⟨F, hF, href⟩ := hk.refs s.module.store.size _ ((function?_push ..).trans (if_pos rfl))
  exact ⟨g₇, hsur, hlater, rfl, F, hF, href⟩

theorem funcLit_surveys {body : Lower α} (hp : ∀ fn, Progress fn true body fun _ => True)
    (hbody : Surveys true body fun _ _ _ _ => True) :
    GivesFit framed (funcLit pos params body) := by
  intro first fn g s h x t hx
  unfold funcLit at hx
  rw [bind_run, get_run] at hx
  obtain ⟨_, s₁, hset, hrest⟩ := bind_eq_ok hx
  obtain ⟨-, rfl⟩ := EStateM.Result.ok.inj hset
  obtain ⟨f, s₂, hf, hvalue⟩ := bind_eq_ok hrest
  obtain ⟨h₁, hl₁⟩ := h.count
  obtain ⟨g₂, h₂, hl₂, hname, hF⟩ := inFunction_surveys hp hbody h₁
    (fun hplain => absurd hplain (not_plain_funcName _)) (.inr ⟨_, rfl⟩) hf
  have hoffers : s₂.module.Offers f := ⟨hF,
    fun n he => unitName_ne_funcName _ _ (he.symm.trans hname)⟩
  obtain ⟨h₃, hl₃, hfit⟩ := functionValue_surveys h₂ hoffers (.inr ⟨_, hname⟩) hvalue
  exact ⟨g₂, h₃, (hl₁.trans hl₂).trans hl₃, hfit⟩

theorem funcDef_surveys {body : Lower α}
    (hname : IsName name) (hp : ∀ fn, Progress fn true body fun _ => True)
    (hbody : Surveys true body fun _ _ _ _ => True) :
    GivesFit framed (funcDef pos name params body) := by
  intro first fn g s h x t hx
  unfold funcDef at hx
  rw [bind_run, lookup_run] at hx
  dsimp only at hx
  cases hvar : s.scopes.lookup name with
  | some slot =>
    rw [hvar] at hx
    exact absurd hx reject_bind_ne_ok
  | none =>
    rw [hvar] at hx
    simp only [Option.isSome_none, Bool.false_eq_true, if_false] at hx
    rw [bind_run, function?_run] at hx
    dsimp only at hx
    cases hfun : s.module.find? name with
    | some f =>
      rw [hfun] at hx
      exact absurd hx reject_bind_ne_ok
    | none =>
      rw [hfun] at hx
      simp only [Option.isSome_none, Bool.false_eq_true, if_false] at hx
      obtain ⟨f, s₁, hf, hrest⟩ := bind_eq_ok hx
      cases hrest
      obtain ⟨g₁, h₁, hl₁, -⟩ := inFunction_surveys hp hbody h
        (fun _ => Scopes.globals_of_lookup hvar) (.inl hname) hf
      exact ⟨g₁, h₁, hl₁, trivial⟩

theorem hostDecl_surveys (hname : IsName name) : GivesFit framed (hostDecl pos name params) := by
  intro first fn g s h x t hx
  obtain ⟨hsteps, hadv, -⟩ := (hostDecl_progress pos name params s h.ready).ok hx
  unfold hostDecl at hx
  rw [bind_run, get_run] at hx
  dsimp only at hx
  split at hx
  · rw [bind_run, lookup_run] at hx
    dsimp only at hx
    split at hx
    · exact absurd hx reject_bind_ne_ok
    · rw [bind_run, function?_run] at hx
      dsimp only at hx
      cases hfun : s.module.find? name with
      | some f =>
        rw [hfun] at hx
        dsimp only at hx
        split at hx
        · cases hx
          exact ⟨g, h, .refl fn g s, trivial⟩
        · exact absurd hx reject_ne_ok
      | none =>
        rw [hfun] at hx
        obtain ⟨f, s₁, hf, hrest⟩ := bind_eq_ok hx
        cases hrest
        rw [declare_run_native hfun] at hf
        obtain ⟨-, rfl⟩ := EStateM.Result.ok.inj hf
        obtain ⟨h₁, hl₁⟩ := h.host hname (h.ready.advance hsteps hadv)
        exact ⟨_, h₁, hl₁, trivial⟩
  · exact absurd hx reject_bind_ne_ok

/-! ## Trees -/

theorem plain_of_mem_reservedNames (h : name ∈ reservedNames) : Plain name := by
  revert name
  simp [reservedNames, Plain]

theorem plain_of_shaped {level : Level} {n : Node} (h : n.Shaped level) : n.Named Plain :=
  Node.Shaped.named (fun _ => IsName.plain) (fun _ => plain_of_mem_reservedNames) level n h

abbrev GivesFits (framed : Bool) (x : Lower (List Operand)) : Prop :=
  Surveys framed x fun g t fn vs => ∀ v ∈ vs, t.Fit g fn v

theorem surveys_condition {c : Lower Operand} (h : GivesFit framed c) (pos : Position) :
    GivesFit framed (do condition pos (← c)) := by
  intro first fn g s hs x t hx
  obtain ⟨v, s₁, hv, hx⟩ := bind_eq_ok hx
  obtain ⟨g₁, h₁, hl₁, hfit⟩ := h first fn g s hs v s₁ hv
  obtain ⟨h₂, hl₂, hfit₂⟩ := condition_surveys h₁ hfit hx
  exact ⟨g₁, h₂, hl₁.trans hl₂, hfit₂⟩

theorem surveys_requireReal {c : Lower Operand} (h : GivesFit framed c) (role : Role)
    (pos : Position) :
    GivesFit framed (do requireReal role pos (← c)) := by
  intro first fn g s hs x t hx
  obtain ⟨v, s₁, hv, hx⟩ := bind_eq_ok hx
  obtain ⟨rfl, rfl, -⟩ := requireReal_eq_ok hx
  exact h first fn g s hs x t hv

theorem surveys_pure {a : Operand} (h : ∀ g s fn, Fit g s fn a) : GivesFit framed (pure a) := by
  intro first fn g s hs x t hx
  cases hx
  exact ⟨g, hs, .refl fn g s, h g s fn⟩

theorem Surveys.weaken {x : Lower α} {Q : Chart → Lowering → Nat → α → Prop}
    (h : Surveys framed x Q) :
    Surveys framed x fun _ _ _ _ => True := by
  intro first fn g s hs a t hx
  obtain ⟨g', h', hl, -⟩ := h first fn g s hs a t hx
  exact ⟨g', h', hl, trivial⟩

mutual

theorem lower_surveys (level : Level) (n : Node) (hn : n.Shaped level) (framed : Bool) :
    GivesFit framed (lower n) := by
  have hplain := plain_of_shaped hn
  match n with
  | .number _ x => exact surveys_pure fun _ _ _ => trivial
  | .ident pos name => exact readVariable_surveys hn (IsName.plain hn) pos
  | .unary _ op x =>
    intro first fn g s hs v t hx
    obtain ⟨y, s₁, hy, hrest⟩ := bind_eq_ok hx
    obtain ⟨z, s₂, hz, hbuild⟩ := bind_eq_ok hrest
    obtain ⟨rfl, rfl, -⟩ := requireReal_eq_ok hz
    obtain ⟨g₁, h₁, hl₁, hfit⟩ := lower_surveys .operand x hn.2 framed first fn g s hs z s₂ hy
    obtain ⟨h₂, hl₂, hfit₂⟩ := unary_surveys h₁ hfit hbuild
    exact ⟨g₁, h₂, hl₁.trans hl₂, hfit₂⟩
  | .binary pos op l r =>
    intro first fn g s hs v t hx
    unfold lower at hx
    split at hx
    · cases l with
      | ident targetPos name =>
        obtain ⟨y, s₁, hy, hx⟩ := bind_eq_ok hx
        obtain ⟨g₁, h₁, hl₁, hfit⟩ := lower_surveys .operand r hn.2.2 framed first fn g s hs y s₁ hy
        obtain ⟨h₂, hl₂, hfit₂⟩ := assign_surveys (IsName.plain hn.2.1) h₁ hfit hx
        exact ⟨g₁, h₂, hl₁.trans hl₂, hfit₂⟩
      | _ => exact absurd hx reject_ne_ok
    · obtain ⟨y, s₁, hy, hx⟩ := bind_eq_ok hx
      obtain ⟨z, s₂, hz, hx⟩ := bind_eq_ok hx
      obtain ⟨g₁, h₁, hl₁, hfit₁⟩ := lower_surveys .operand l hn.2.1 framed first fn g s hs y s₁ hy
      obtain ⟨g₂, h₂, hl₂, hfit₂⟩ := lower_surveys .operand r hn.2.2 framed first fn
        g₁ s₁ h₁ z s₂ hz
      obtain ⟨h₃, hl₃, hfit₃⟩ := binary_surveys h₂ (hfit₁.later hl₂ h₁.function_isSome) hfit₂ hx
      exact ⟨g₂, h₃, (hl₁.trans hl₂).trans hl₃, hfit₃⟩
  | .call pos builtin name args =>
    intro first fn g s hs v t hx
    have hname : Plain name := hplain.1
    have hargs : Node.ShapedAll .operand args := by cases builtin <;> exact hn.2
    obtain ⟨c, s₁, hc, hx⟩ := bind_eq_ok hx
    obtain ⟨vs, s₂, hvs, hx⟩ := bind_eq_ok hx
    obtain ⟨ws, s₃, hws, hcall⟩ := bind_eq_ok hx
    obtain ⟨rfl, hfit⟩ := callee_surveys hs hname hc
    obtain ⟨g₂, h₂, hl₂, hfits⟩ := lowerAll_surveys .operand args hargs framed first fn g
      s₁ hs vs s₂ hvs
    obtain ⟨rfl, rfl⟩ := checkArguments_eq_ok hws
    obtain ⟨h₃, hl₃, hfit₃⟩ := call_surveys h₂ (hfit.later hl₂ hs.function_isSome) (fun x hx => by
      obtain ⟨⟨pos, y⟩, hy, rfl⟩ := List.mem_map.mp hx
      exact hfits y (List.of_mem_zip hy).2) hcall
    exact ⟨g₂, h₃, hl₂.trans hl₃, hfit₃⟩
  | .collection _ _ elements =>
    intro first fn g s hs v t hx
    obtain ⟨vs, s₁, hvs, hx⟩ := bind_eq_ok hx
    obtain ⟨g₁, h₁, hl₁, hfits⟩ := lowerElements_surveys elements hn.2 framed first fn g
      s hs vs s₁ hvs
    obtain ⟨h₂, hl₂, hfit₂⟩ := collection_surveys h₁ hfits hx
    exact ⟨g₁, h₂, hl₁.trans hl₂, hfit₂⟩
  | .conditional _ c body none =>
    exact ifThen_surveys (surveys_condition (lower_surveys .operand c hn.2.1 framed) c.pos)
      (fun fn => lowerAll_progress body hplain.2 fn true)
      (lowerAll_surveys .body body hn.2.2 true).weaken
  | .conditional _ c body (some otherwise) =>
    exact ifElse_surveys (surveys_condition (lower_surveys .operand c hn.2.1 framed) c.pos)
      (fun fn => lowerAll_progress body hplain.2.1 fn true)
      (lowerAll_surveys .body body hn.2.2.1 true).weaken
      (fun fn => lowerAll_progress otherwise hplain.2.2 fn true)
      (lowerAll_surveys .body otherwise hn.2.2.2 true).weaken
  | .whileLoop pos c body =>
    exact whileLoop_surveys (lower_progress (.whileLoop pos c body) hplain)
      (surveys_condition (lower_surveys .operand c hn.2.1 true) c.pos)
      (lowerAll_surveys .body body hn.2.2 true).weaken
  | .forLoop pos var start stop none body =>
    exact forLoop_surveys (lower_progress (.forLoop pos var start stop none body) hplain)
      (surveys_requireReal (lower_surveys .operand start hn.2.2.1 framed) _ start.pos)
      (lowerAll_surveys .body body hn.2.2.2.2 true).weaken (surveys_pure fun _ _ _ => trivial)
      (surveys_condition (lower_surveys .operand stop hn.2.2.2.1 true) stop.pos)
  | .forLoop pos var start stop (some step) body =>
    exact forLoop_surveys (lower_progress (.forLoop pos var start stop (some step) body) hplain)
      (surveys_requireReal (lower_surveys .operand start hn.2.2.1 framed) _ start.pos)
      (lowerAll_surveys .body body hn.2.2.2.2.2 true).weaken
      (surveys_requireReal (lower_surveys .operand step hn.2.2.2.2.1 true) _ step.pos)
      (surveys_condition (lower_surveys .operand stop hn.2.2.2.1 true) stop.pos)
  | .funcLit pos params body =>
    exact funcLit_surveys (fun fn => lowerAll_progress body hplain.2 fn true)
      (lowerAll_surveys .body body hn.2 true).weaken
  | .funcDef pos name params body =>
    exact funcDef_surveys hn.2.1 (fun fn => lowerAll_progress body hplain.2.2 fn true)
      (lowerAll_surveys .body body hn.2.2.2 true).weaken
  | .hostDecl pos name params => exact hostDecl_surveys hn.2.1
  | .ret _ x => exact ret_surveys (lower_surveys .operand x hn.2 framed)

theorem lowerAll_surveys (level : Level) (ns : List Node) (hn : Node.ShapedAll level ns)
    (framed : Bool) : GivesFits framed (lowerAll ns) := by
  match ns with
  | [] =>
    intro first fn g s hs vs t hx
    cases hx
    exact ⟨g, hs, .refl fn g s, by simp⟩
  | n :: ns =>
    intro first fn g s hs vs t hx
    obtain ⟨v, s₁, hv, hx⟩ := bind_eq_ok hx
    obtain ⟨ws, s₂, hws, hx⟩ := bind_eq_ok hx
    cases hx
    obtain ⟨g₁, h₁, hl₁, hfit⟩ := lower_surveys level n hn.1 framed first fn g s hs v s₁ hv
    obtain ⟨g₂, h₂, hl₂, hfits⟩ := lowerAll_surveys level ns hn.2 framed first fn g₁ s₁ h₁ ws t hws
    refine ⟨g₂, h₂, hl₁.trans hl₂, fun x hx => ?_⟩
    rcases List.mem_cons.mp hx with rfl | hx
    · exact hfit.later hl₂ h₁.function_isSome
    · exact hfits x hx

theorem lowerElements_surveys (ns : List Node) (hn : Node.ShapedAll .operand ns) (framed : Bool) :
    GivesFits framed (lowerElements ns) := by
  match ns with
  | [] =>
    intro first fn g s hs vs t hx
    cases hx
    exact ⟨g, hs, .refl fn g s, by simp⟩
  | n :: ns =>
    intro first fn g s hs vs t hx
    unfold lowerElements at hx
    dsimp only at hx
    split at hx
    · exact absurd hx reject_bind_ne_ok
    · obtain ⟨v, s₁, hv, hx⟩ := bind_eq_ok hx
      obtain ⟨w, s₂, hw, hrest⟩ := bind_eq_ok hx
      obtain ⟨ws, s₃, hws, hdone⟩ := bind_eq_ok hrest
      obtain ⟨rfl, rfl, -⟩ := requireReal_eq_ok hw
      cases hdone
      obtain ⟨g₁, h₁, hl₁, hfit⟩ := lower_surveys .operand n hn.1 framed first fn g s hs w s₂ hv
      obtain ⟨g₂, h₂, hl₂, hfits⟩ := lowerElements_surveys ns hn.2 framed first fn g₁ s₂ h₁ ws t hws
      refine ⟨g₂, h₂, hl₁.trans hl₂, fun x hx => ?_⟩
      rcases List.mem_cons.mp hx with rfl | hx
      · exact hfit.later hl₂ h₁.function_isSome
      · exact hfits x hx

end

end Lower

end RealScript
