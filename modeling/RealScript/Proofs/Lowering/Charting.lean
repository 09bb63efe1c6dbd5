import RealScript.Proofs.Lowering.Charts

/-! # Keeping up a chart

What each step of lowering does to the chart of the code.
-/

namespace RealScript

variable {c : BlockRef} {name : String}

def Chart.narrow (g : Chart) (b : Block) (targets : List (Option BlockRef)) : Chart :=
  { g with known := fun c φ => g.known c φ ∧ (some c ∈ targets → g.After b φ) }

theorem Chart.narrow_nil (g : Chart) (b : Block) : g.narrow b [] = g := by
  simp [narrow]

namespace Lowering

variable {first fn : Nat} {framed : Bool} {g g' : Chart} {s t : Lowering} {r : BlockRef}
  {f : Function} {b : Block} {d : Draft}

def Leads (g : Chart) (s : Lowering) (b : Block) (targets : List (Option BlockRef)) : Prop :=
  ∀ c, some c ∈ targets → ∃ e, s.block? c = some e ∧
    (e.instrs = [] ∨ ∀ φ, g.known c φ → g.After b φ)

theorem Leads.known {targets : List (Option BlockRef)} (hl : s.Leads g b targets)
    {e : Block} (he : s.block? c = some e) (hne : e.instrs ≠ []) {φ : Fact} (h : g.known c φ) :
    (g.narrow b targets).known c φ := by
  refine ⟨h, fun hc => ?_⟩
  obtain ⟨e', he', hempty | hsub⟩ := hl c hc
  · cases he.symm.trans he'
    exact absurd hempty hne
  · exact hsub φ h

theorem At.block?_emit (hs : s.At r f b) (d : Draft) (c : BlockRef) :
    (s.withFunction r.fn (f.emit r d).2).block? c =
      if c = r then some (b.push (f.nextInstr r d)) else s.block? c := by
  rw [block?_withFunction hs.function, Function.block?_emit]
  by_cases hc : c = r
  · subst hc
    simp [hs.block]
  · rw [if_neg hc, if_neg hc]
    split
    · rw [block?, ‹c.fn = r.fn›, hs.function]
      rfl
    · rfl

theorem At.grows_emit (hs : s.At r f b) (ht : f.Tidy) (d : Draft) : f.Grows (f.emit r d).2 := by
  refine Function.grows_emit d fun c hc hr => ?_
  have := Function.block?_eq_some ht hc
  rw [hr, hs.block] at this
  exact Option.some.inj this ▸ hs.open_

theorem Charted.emit (hc : s.Charted first g) (hs : s.At r f b) (ht : f.Tidy)
    (hlegal : d.toOperation.Legal s.module f) (htype : d.ty = d.toOperation.resultTy)
    (hneeds : ∀ φ, d.toOperation.Needs g.reach r.fn φ → g.After b φ)
    (htargets : s.Leads g b d.targets) :
    (s.withFunction r.fn (f.emit r d).2).Charted first (g.narrow b d.targets) := by
  have href : b.ref = r := Function.ref_of_block? hs.block
  have hgrows := hs.grows_emit ht d
  have hrefs : ∀ k f', s.module.function? k = some f' → ∃ g',
      (s.withFunction r.fn (f.emit r d).2).module.function? k = some g' ∧ g'.ref = f'.ref := by
    intro k f' hf'
    rw [function?_withFunction hs.function]
    split
    · subst k
      cases hs.function.symm.trans hf'
      exact ⟨_, rfl, rfl⟩
    · exact ⟨f', hf', rfl⟩
  have hself : ∀ φ, g.known r φ → (g.narrow b d.targets).known r φ := fun φ h =>
    ⟨h, fun _ => .inl (href ▸ h)⟩
  refine
    { need := fun c e hfirst he pre i post hi φ hφ => ?_
      edge := fun c e c' hfirst he hsucc φ hφ => ?_
      entry := fun k φ h => hc.entry k φ h.1
      fresh := fun c hb hi φ => ?_
      legal := fun c f' e hfirst hf' he i hi => ?_
      reach := fun k f' hf' => ?_
      globals := hc.globals
      homes := hc.homes
      locals := fun frame hframe x hx => ?_ }
  · rw [hs.block?_emit] at he
    split at he
    · cases he
      subst c
      -- The instruction is the new one or one of those from before.
      rcases List.eq_nil_or_concat post with rfl | ⟨post, last, rfl⟩
      · obtain ⟨rfl, hlast⟩ := List.append_inj' (show b.instrs ++ [_] = pre ++ [i] from hi) rfl
        obtain rfl := (List.cons.inj hlast).1
        rcases hneeds φ hφ with hk | hj
        · exact .inl (hself φ (href ▸ hk))
        · exact .inr hj
      · rw [List.concat_eq_append, ← List.cons_append, ← List.append_assoc] at hi
        obtain ⟨hi, -⟩ := List.append_inj' (show b.instrs ++ [_] = _ ++ [last] from hi) rfl
        exact (hc.need r b hfirst hs.block?_eq pre i post hi φ hφ).imp_left (hself φ)
    · exact (hc.need c e hfirst he pre i post hi φ hφ).imp_left (htargets.known he (by simp [hi]))
  · rw [hs.block?_emit] at he
    split at he
    · cases he
      subst c
      have hmem : some c' ∈ d.targets := by
        unfold Block.successors at hsucc
        rw [Block.terminator?_push] at hsucc
        by_cases hterm : (f.nextInstr r d).isTerminator = true
        · rw [if_pos hterm] at hsucc
          exact hsucc
        · rw [if_neg hterm] at hsucc
          cases hsucc
      rcases hφ.2 hmem with hk | ⟨j, hj, hjφ⟩
      · exact .inl (href ▸ hself φ (href ▸ hk))
      · exact .inr ⟨j, List.mem_append_left _ hj, hjφ⟩
    · rename_i hcr
      have href' : e.ref = c := by
        obtain ⟨f', -, he⟩ := Option.bind_eq_some_iff.mp he
        exact Function.ref_of_block? he
      have hne : e.instrs ≠ [] := by
        intro hn
        simp [Block.successors, Block.terminator?, hn] at hsucc
      rcases hc.edge c e c' hfirst he hsucc φ hφ.1 with hk | hj
      · exact .inl (href' ▸ htargets.known he hne (href' ▸ hk))
      · exact .inr hj
  · rw [hs.block?_emit] at hb
    split at hb
    · cases hb
    · refine ⟨hc.fresh c hb hi φ, fun hmem => ?_⟩
      obtain ⟨e, he, -⟩ := htargets c hmem
      rw [hb] at he
      cases he
  · have hmono : ∀ {f₁ f₂ : Function} {i : Instr}, i.Legal s.module f₁ → f₂.ref = f₁.ref →
        f₁.slots <+: f₂.slots → i.Legal (s.withFunction r.fn (f.emit r d).2).module f₂ :=
      fun hl hr hsl => hl.mono List.prefix_rfl hrefs hr hsl
    rw [function?_withFunction hs.function] at hf'
    split at hf'
    · rename_i hfn
      cases hf'
      rw [Function.block?_emit] at he
      split at he
      · subst c
        rw [hs.block] at he
        cases he
        rcases List.mem_append.mp hi with hi | hi
        · exact hmono (hc.legal r f b hfirst hs.function hs.block i hi) rfl hgrows.slots
        · obtain rfl := List.mem_singleton.mp hi
          have hl : d.toOperation.Legal (s.withFunction r.fn (f.emit r d).2).module
            (f.emit r d).2 :=
            hlegal.mono List.prefix_rfl hrefs rfl hgrows.slots
          refine ⟨hl, htype, ?_⟩
          simp only [Function.nextInstr, Draft.instr, Function.newResult]
          split <;> simp_all
      · exact hmono (hc.legal c f e hfirst (hfn ▸ hs.function) he i hi) rfl hgrows.slots
    · exact hmono (hc.legal c f' e hfirst hf' he i hi) rfl List.prefix_rfl
  · rw [function?_withFunction hs.function] at hf'
    split at hf'
    · subst k
      exact hc.reach r.fn f hs.function
    · exact hc.reach k f' hf'
  · obtain ⟨f', hf', hhome, hslot⟩ := hc.locals frame hframe x hx
    rw [function?_withFunction hs.function]
    split
    · rename_i ho
      rw [ho] at hf'
      cases hs.function.symm.trans hf'
      exact ⟨_, rfl, hhome, getElem?_of_prefix hgrows.slots hslot⟩
    · exact ⟨f', hf', hhome, hslot⟩

theorem Charted.withFunction (hc : s.Charted first g) {k : Nat} {f f' : Function}
    (hf : s.module.function? k = some f) (hg : f.Grows f')
    (hnew : ∀ c e, f'.block? c = some e → e.instrs ≠ [] → f.block? c = some e) :
    (s.withFunction k f').Charted first g := by
  have hrefs : ∀ j h, s.module.function? j = some h → ∃ h',
      (s.withFunction k f').module.function? j = some h' ∧ h'.ref = h.ref := by
    intro j h hj
    rw [function?_withFunction hf]
    split
    · subst j
      cases hf.symm.trans hj
      exact ⟨f', rfl, hg.ref⟩
    · exact ⟨h, hj, rfl⟩
  have hblock : ∀ c e, (s.withFunction k f').block? c = some e → e.instrs ≠ [] →
      s.block? c = some e := by
    intro c e he hne
    rw [block?_withFunction hf] at he
    split at he
    · rw [block?, ‹c.fn = k›, hf]
      exact hnew c e he hne
    · exact he
  refine
    { need := fun c e hfirst he pre i post hi => hc.need c e hfirst
        (hblock c e he (by simp [hi])) pre i
        post hi
      edge := fun c e c' hfirst he hsucc => hc.edge c e c' hfirst (hblock c e he ?_) hsucc
      entry := hc.entry
      fresh := fun c hb => hc.fresh c ?_
      legal := fun c f₁ e hfirst hf₁ he i hi => ?_
      reach := fun j h hj => ?_
      globals := hc.globals
      homes := hc.homes
      locals := fun frame hframe x hx => ?_ }
  · intro hn
    simp [Block.successors, Block.terminator?, hn] at hsucc
  · rw [block?_withFunction hf] at hb
    split at hb
    · rw [block?, ‹c.fn = k›, hf]
      cases he : f.block? c with
      | none => exact he
      | some e =>
        obtain ⟨e', he', -⟩ := hg.block? he
        rw [hb] at he'
        cases he'
    · exact hb
  · have hold := hblock c e (by rw [block?, hf₁]; exact he) (List.ne_nil_of_mem hi)
    obtain ⟨f₀, hf₀, he₀⟩ := Option.bind_eq_some_iff.mp hold
    refine (hc.legal c f₀ e hfirst hf₀ he₀ i hi).mono List.prefix_rfl hrefs ?_ ?_ <;>
      rw [function?_withFunction hf] at hf₁ <;> split at hf₁
    · rw [‹c.fn = k›, hf] at hf₀
      cases hf₁
      cases hf₀
      exact hg.ref
    · cases hf₁.symm.trans hf₀
      rfl
    · rw [‹c.fn = k›, hf] at hf₀
      cases hf₁
      cases hf₀
      exact hg.slots
    · cases hf₁.symm.trans hf₀
      exact List.prefix_rfl
  · rw [function?_withFunction hf] at hj
    split at hj
    · subst j
      exact hc.reach k f hf
    · exact hc.reach j h hj
  · obtain ⟨h, hh, hhome, hslot⟩ := hc.locals frame hframe x hx
    rw [function?_withFunction hf]
    split
    · rw [‹frame.owner.id = k›, hf] at hh
      cases hh
      exact ⟨f', rfl, by rwa [hg.id], getElem?_of_prefix hg.slots hslot⟩
    · exact ⟨h, hh, hhome, hslot⟩

theorem Charted.congr (hc : s.Charted first g) (hm : t.module = s.module)
    (hg : t.scopes.globals = s.scopes.globals)
    (hl : ∀ frame ∈ t.scopes.inner, ∀ x ∈ frame.vars, ∃ f,
      s.module.function? frame.owner.id = some f ∧ x.2.home = .activation f.id ∧
        f.slots[x.2.index]? = some x.2) : t.Charted first g := by
  have hb : ∀ r, t.block? r = s.block? r := fun r => by rw [block?, hm, block?]
  exact
    { need := fun r b hfirst h => hc.need r b hfirst (hb r ▸ h)
      edge := fun r b c hfirst h => hc.edge r b c hfirst (hb r ▸ h)
      entry := hc.entry
      fresh := fun r h => hc.fresh r (hb r ▸ h)
      legal := fun r f b hfirst h => by rw [hm] at h ⊢; exact hc.legal r f b hfirst h
      reach := fun k f h => by rw [hm] at h ⊢; exact hc.reach k f h
      globals := by rw [hg, hm]; exact hc.globals
      homes := fun k slot h => hc.homes k slot (hm ▸ h)
      locals := fun frame hframe x hx => by rw [hm]; exact hl frame hframe x hx }

def goTo (s : Lowering) (r : Option BlockRef) : Lowering :=
  { s with builder := { s.builder with point := r } }

theorem Charted.goTo (hc : s.Charted first g) (r : Option BlockRef) : (s.goTo r).Charted first g :=
  hc.congr rfl rfl hc.locals

/-! ## Between blocks -/

structure Drawn (first fn : Nat) (framed : Bool) (g : Chart) (s : Lowering) : Prop where
  ready : s.Ready fn framed
  charted : s.Charted first g
  first_le : first ≤ fn
  entry : s.depth = 0 → ∀ f, s.module.function? fn = some f → ∃ n, f.name = unitName n

theorem Surveyed.drawn (h : Surveyed first fn framed g s) : Drawn first fn framed g s :=
  ⟨h.ready, h.charted, h.first_le, h.entry⟩

theorem Drawn.at (h : Drawn first fn framed g s) (hsite : ∃ r f b, s.At r f b) :
    ∃ r f b, s.At r f b ∧ r.fn = fn ∧ f.id = fn ∧ f.Tidy := by
  obtain ⟨r, f, b, hs⟩ := hsite
  obtain ⟨f', hf', hid, ht⟩ := h.ready.orderly.function_of_point hs.point
  obtain rfl := Option.some.inj (hf'.symm.trans hs.function)
  have hr : r.fn = fn := by simpa [fn?, hs.point] using h.ready.inside
  exact ⟨r, f', b, hs, hr, hr ▸ hid, ht⟩

theorem Drawn.surveyed (h : Drawn first fn framed g' t) (hs : Surveyed first fn framed g s)
    (hsite : ∃ r f b, t.At r f b) (hscopes : t.scopes = s.scopes)
    (hglobals : t.module.globals = s.module.globals) (hreach : g'.reach fn = g.reach fn)
    (hhere : ∀ φ, s.Here g φ → t.Here g' φ) : Surveyed first fn framed g' t where
  ready := h.ready
  charted := h.charted
  first_le := h.first_le
  site := hsite
  stored frame hframe ho x hx := hhere _ (hs.stored frame (hscopes ▸ hframe) ho x hx)
  own k hk hlt := hhere _ (hs.own k (hreach ▸ hk) (hglobals ▸ hlt))
  entry := h.entry

theorem Drawn.goTo (h : Drawn first fn framed g s) {e : Block}
    (hc : s.block? c = some e) (hempty : e.instrs = []) (hfn : c.fn = fn) :
    Drawn first fn framed g (s.goTo (some c)) ∧ (∃ r f b, (s.goTo (some c)).At r f b) ∧
      ∀ φ, (s.goTo (some c)).Here g φ ↔ g.known c φ := by
  obtain ⟨f, hf, he⟩ := Option.bind_eq_some_iff.mp hc
  have hgoes := (Lower.moveTo_progress hfn s h.ready).ok rfl
  refine ⟨⟨h.ready.advance hgoes.1 hgoes.2.1, h.charted.goTo _, h.first_le, h.entry⟩,
    ⟨c, f, e, rfl, hf, he, by simp [Block.terminator?, hempty]⟩, fun φ => ?_⟩
  have href := Function.ref_of_block? he
  constructor
  · rintro ⟨r, b, hp, hb, hk | ⟨i, hi, -⟩⟩
    · cases hp
      cases hb.symm.trans hc
      exact href ▸ hk
    · cases hp
      cases hb.symm.trans hc
      simp [hempty] at hi
  · exact fun hk => ⟨c, e, rfl, hc, .inl (href ▸ hk)⟩

theorem Keeps.emit {g₀ : Chart} {s₀ : Lowering} (h : Keeps fn g₀ s₀ g s) (hs : s.At r f b)
    (hfn : r.fn = fn) (ht : f.Tidy)
    (hfresh : ∀ c, some c ∈ d.targets → s₀.block? c = none) :
    Keeps fn g₀ s₀ (g.narrow b d.targets) (s.withFunction r.fn (f.emit r d).2) where
  blocks c e he hc := by
    have hcr : c ≠ r := by
      rintro rfl
      rcases h.point _ hs.point with hp | hn
      · exact hc hp
      · rw [hn] at he
        cases he
    rw [hs.block?_emit, if_neg hcr]
    exact h.blocks c e he hc
  point := h.point
  known c e he := by
    funext φ
    have hc : some c ∉ d.targets := fun hc => by
      rw [hfresh c hc] at he
      cases he
    simp [Chart.narrow, hc, h.known c e he]
  reach := h.reach
  function k f₀ hf₀ := by
    obtain ⟨f', hf', hg⟩ := h.function k f₀ hf₀
    rw [function?_withFunction hs.function]
    split
    · subst k
      cases hs.function.symm.trans hf'
      exact ⟨_, rfl, hg.trans (hs.grows_emit ht d)⟩
    · exact ⟨f', hf', hg⟩
  others k f₀ hk hf₀ := by
    rw [function?_withFunction hs.function, if_neg (hfn ▸ hk)]
    exact h.others k f₀ hk hf₀
  new k f₀ hk hn hf₀ := by
    rw [function?_withFunction hs.function, if_neg (hfn ▸ hk)] at hf₀
    exact h.new k f₀ hk hn hf₀
  globals := h.globals

theorem At.emit (hs : s.At r f b) (hd : d.op.isTerminator = false) :
    (s.withFunction r.fn (f.emit r d).2).At r (f.emit r d).2 (b.push (f.nextInstr r d)) where
  point := hs.point
  function := by rw [function?_withFunction hs.function, if_pos rfl]
  block := by simp [Function.block?_emit, hs.block]
  open_ := by
    rw [Block.terminator?_push, if_neg]
    simp [Function.nextInstr, Draft.instr, Instr.isTerminator, hd]

theorem after_push {i : Instr} {φ : Fact} : g.After (b.push i) φ ↔ g.After b φ ∨ φ ∈ i.facts := by
  simp only [Chart.After, Block.push, List.mem_append, List.mem_singleton]
  constructor
  · rintro (h | ⟨j, hj | rfl, hφ⟩)
    · exact .inl (.inl h)
    · exact .inl (.inr ⟨j, hj, hφ⟩)
    · exact .inr hφ
  · rintro ((h | ⟨j, hj, hφ⟩) | hφ)
    · exact .inl h
    · exact .inr ⟨j, .inl hj, hφ⟩
    · exact .inr ⟨i, .inr rfl, hφ⟩

theorem Drawn.emit (h : Drawn first fn framed g s) (hsite : ∃ r f b, s.At r f b)
    (ho : Build.Offered (.emit d)) (hd : d.op.isTerminator = false) (htargets : d.targets = [])
    (hlegal : ∀ f, s.module.function? fn = some f → d.toOperation.Legal s.module f)
    (htype : d.ty = d.toOperation.resultTy)
    (hneeds : ∀ φ, d.toOperation.Needs g.reach fn φ → s.Here g φ) {x : Operand}
    (hx : Lower.build (.emit d) s = .ok x t) :
    Drawn first fn framed g t ∧ (∃ r f b, t.At r f b) ∧ Later fn g s g t ∧ t.scopes = s.scopes ∧
      t.module.globals = s.module.globals ∧
      ∃ i : Instr, i.toOperation = d.toOperation ∧ x = .result i.ref ∧
      ∀ φ ∈ i.facts, t.Here g φ := by
  obtain ⟨r, f, b, hs, rfl, hid, ht⟩ := h.at hsite
  obtain ⟨hsteps, hadv, -⟩ := (Lower.build_progress ho s h.ready).ok hx
  obtain ⟨rfl, rfl⟩ := Lower.emit_eq_ok hs hid hx
  have hkeeps := (Keeps.refl r.fn g s).emit (d := d) hs rfl ht (by simp [htargets])
  have hcharted := h.charted.emit hs ht (hlegal f hs.function) htype
    (fun φ hφ => (Here.of_at hs).mp (hneeds φ hφ)) (by simp [Leads, htargets])
  rw [htargets, Chart.narrow_nil] at hkeeps hcharted
  have hat := hs.emit hd
  refine ⟨⟨h.ready.advance hsteps hadv, hcharted, h.first_le, fun hdepth f' hf' => ?_⟩,
    ⟨r, _, _, hat⟩, { hkeeps, hadv with here := fun φ hφ => ?_ }, rfl, rfl,
      f.nextInstr r d, rfl, rfl,
    fun φ hφ => ?_⟩
  · rw [function?_withFunction hs.function, if_pos rfl] at hf'
    cases hf'
    exact h.entry hdepth f hs.function
  · exact (Here.of_at hat).mpr (after_push.mpr (.inl ((Here.of_at hs).mp hφ)))
  · exact (Here.of_at hat).mpr (after_push.mpr (.inr hφ))

structure Jumped (fn : Nat) (framed : Bool) (g : Chart) (s : Lowering)
    (targets : List (Option BlockRef))
    (g' : Chart) (t : Lowering) : Prop where
  known : ∀ c φ, g'.known c φ ↔ g.known c φ ∧ (some c ∈ targets → s.Here g φ)
  reach : g'.reach = g.reach
  point : t.builder.point = s.builder.point
  blocks : ∀ c, s.builder.point ≠ some c → t.block? c = s.block? c
  kept : ∀ c b, s.block? c = some b → ∃ b', t.block? c = some b'
  keeps : ∀ g₀ s₀, Keeps fn g₀ s₀ g s → (∀ c, some c ∈ targets → s₀.block? c = none) →
    Keeps fn g₀ s₀ g' t
  scopes : t.scopes = s.scopes
  globals : t.module.globals = s.module.globals
  depth : t.depth = s.depth

theorem Surveyed.jump (h : Surveyed first fn framed g s) (ho : Build.Offered (.emit d))
    (hlegal : ∀ f, s.module.function? fn = some f → d.toOperation.Legal s.module f)
    (htype : d.ty = d.toOperation.resultTy)
    (hneeds : ∀ φ, d.toOperation.Needs g.reach fn φ → s.Here g φ)
    (htargets : ∀ c, some c ∈ d.targets → ∃ e, s.block? c = some e ∧
      (e.instrs = [] ∨ ∀ φ, g.known c φ → s.Here g φ)) {x : Operand}
    (hx : Lower.build (.emit d) s = .ok x t) :
    ∃ g', Drawn first fn framed g' t ∧ Jumped fn framed g s d.targets g' t := by
  obtain ⟨r, f, b, hs, rfl, hid, ht⟩ := h.drawn.at h.site
  obtain ⟨hsteps, hadv, -⟩ := (Lower.build_progress ho s h.ready).ok hx
  obtain ⟨rfl, rfl⟩ := Lower.emit_eq_ok hs hid hx
  have hleads : s.Leads g b d.targets := by
    intro c hc
    obtain ⟨e, he, h⟩ := htargets c hc
    exact ⟨e, he, h.imp_right fun h φ hφ => (Here.of_at hs).mp (h φ hφ)⟩
  refine ⟨g.narrow b d.targets, ⟨h.ready.advance hsteps hadv, h.charted.emit hs ht
    (hlegal f hs.function) htype (fun φ hφ => (Here.of_at hs).mp (hneeds φ hφ)) hleads, h.first_le,
    fun hdepth f' hf' => ?_⟩, fun c φ => ?_, rfl, rfl, fun c hc => ?_, fun c b' hb' => ?_,
    fun g₀ s₀ hk hfresh => hk.emit hs rfl ht hfresh, rfl, rfl, rfl⟩
  · rw [function?_withFunction hs.function, if_pos rfl] at hf'
    cases hf'
    exact h.entry hdepth f hs.function
  · simp only [Chart.narrow, Here.of_at hs]
  · have hcr : c ≠ r := fun he => hc (by rw [he]; exact hs.point)
    rw [hs.block?_emit, if_neg hcr]
  · rw [hs.block?_emit]
    split
    · exact ⟨_, rfl⟩
    · exact ⟨b', hb'⟩

theorem Surveyed.withFunction (h : Surveyed first fn framed g s) {r : BlockRef} {f f' : Function}
    {b : Block} (hs : s.At r f b) (hfn : r.fn = fn) (hg : f.Grows f')
    (hblock : f'.block? r = some b)
    (hold : ∀ c e, f.block? c = some e → f'.block? c = some e)
    (hnew : ∀ c e, f'.block? c = some e → e.instrs ≠ [] → f.block? c = some e)
    (hready : (s.withFunction r.fn f').Ready fn framed) :
    Surveyed first fn framed g (s.withFunction r.fn f') ∧ Later fn g s g
    (s.withFunction r.fn f') := by
  subst hfn
  have hat : (s.withFunction r.fn f').At r f' b :=
    ⟨hs.point, by rw [function?_withFunction hs.function, if_pos rfl], hblock, hs.open_⟩
  have hhere : ∀ φ, s.Here g φ → (s.withFunction r.fn f').Here g φ := fun φ hφ =>
    (Here.of_at hat).mpr ((Here.of_at hs).mp hφ)
  refine ⟨Drawn.surveyed ⟨hready, h.charted.withFunction hs.function hg hnew, h.first_le, ?_⟩ h
    ⟨r, f', b, hat⟩ rfl rfl rfl hhere, ?_⟩
  · intro hdepth f₁ hf₁
    rw [function?_withFunction hs.function, if_pos rfl] at hf₁
    cases hf₁
    rw [hg.name]
    exact h.entry hdepth f hs.function
  · exact
      { blocks := fun c e he _ => by
          rw [block?_withFunction hs.function]
          split
          · rw [block?, ‹c.fn = r.fn›, hs.function] at he
            exact hold c e he
          · exact he
        point := fun _ hr => .inl hr
        known := fun _ _ _ => rfl
        reach := fun _ _ _ => rfl
        function := fun k f₀ hf₀ => by
          rw [function?_withFunction hs.function]
          split
          · subst k
            cases hs.function.symm.trans hf₀
            exact ⟨f', rfl, hg⟩
          · exact ⟨f₀, hf₀, .refl f₀⟩
        others := fun k f₀ hk hf₀ => by
          rw [function?_withFunction hs.function, if_neg hk]
          exact hf₀
        new := fun k f₀ hk hn hf₀ => by
          rw [function?_withFunction hs.function, if_neg hk, hn] at hf₀
          cases hf₀
        globals := List.prefix_rfl
        fn := rfl
        scopes := .refl _
        depth := rfl
        here := hhere }

theorem Drawn.createBlock (h : Drawn first fn framed g s) {r : BlockRef} {b : Block}
    (hr : s.builder.point = some r) (hb : s.block? r = some b)
    (hc : Lower.build (.createBlock name) s = .ok c t) :
    Drawn first fn framed g t ∧ Keeps fn g s g t ∧ s.Advances t ∧ t.scopes = s.scopes ∧
      t.module.globals = s.module.globals ∧ t.builder.point = s.builder.point ∧
      (∀ e b, s.block? e = some b → t.block? e = some b) ∧
      s.block? c = none ∧ t.block? c = some { ref := c } ∧ c.fn = fn ∧ ∀ φ, g.known c φ := by
  obtain ⟨hsteps, hadv, -⟩ := (Lower.createBlock_progress name s h.ready).ok hc
  obtain ⟨f, hf, hid, ht⟩ := h.ready.orderly.function_of_point hr
  obtain ⟨b', hrun, rfl⟩ := Lower.build_eq_ok hc
  obtain ⟨r', f', hr', hf', rfl, rfl⟩ := Build.createBlock_eq_ok hrun
  obtain rfl := Option.some.inj (hr'.symm.trans hr)
  obtain rfl := Option.some.inj (hf'.symm.trans hf)
  have hfn : r'.fn = fn := by simpa [fn?, hr] using h.ready.inside
  have hwith : { s with builder := { s.builder with
      module := s.builder.module.modify f'.id fun _ => (f'.addBlock name).2 } } =
      s.withFunction r'.fn (f'.addBlock name).2 := by rw [hid]; rfl
  rw [hwith] at hsteps hadv ⊢
  have hblock := fun c => Function.block?_addBlock ht name c
  have hnone := Function.block?_addBlock_self ht name
  have hsnone : s.block? (f'.addBlock name).1 = none := by
    rw [block?, show (f'.addBlock name).1.fn = r'.fn from hid, hf]
    exact hnone
  have hat : ∀ e, (s.withFunction r'.fn (f'.addBlock name).2).block? e =
      if e = (f'.addBlock name).1 then some { ref := e } else s.block? e := by
    intro e
    rw [block?_withFunction hf]
    split
    · rw [hblock]
      split
      · rfl
      · rw [block?, ‹e.fn = r'.fn›, hf]
        rfl
    · rw [if_neg]
      rintro rfl
      exact absurd hid ‹_›
  have hkeep : ∀ e b, s.block? e = some b →
      (s.withFunction r'.fn (f'.addBlock name).2).block? e = some b := by
    intro e b he
    rw [hat, if_neg, he]
    rintro rfl
    rw [hsnone] at he
    cases he
  refine ⟨⟨h.ready.advance hsteps hadv, h.charted.withFunction hf (f'.grows_addBlock name)
    fun e b he hne => ?_, h.first_le, fun hdepth f₁ hf₁ => ?_⟩, ?_, hadv, rfl, rfl, rfl,
      hkeep, hsnone,
    ?_, hid.trans hfn, ?_⟩
  · rw [hblock] at he
    split at he
    · cases he
      exact absurd rfl hne
    · exact he
  · rw [← hfn, function?_withFunction hf, if_pos rfl] at hf₁
    cases hf₁
    exact h.entry hdepth f' (hfn ▸ hf)
  · exact
      { blocks := fun e b he _ => hkeep e b he
        point := fun _ hp => .inl hp
        known := fun _ _ _ => rfl
        reach := fun _ _ _ => rfl
        function := fun k f₀ hf₀ => by
          rw [function?_withFunction hf]
          split
          · subst k
            cases hf.symm.trans hf₀
            exact ⟨_, rfl, f'.grows_addBlock name⟩
          · exact ⟨f₀, hf₀, .refl f₀⟩
        others := fun k f₀ hk hf₀ => by
          rw [function?_withFunction hf, if_neg (hfn ▸ hk)]
          exact hf₀
        new := fun k f₀ hk hn hf₀ => by
          rw [function?_withFunction hf, if_neg (hfn ▸ hk), hn] at hf₀
          cases hf₀
        globals := List.prefix_rfl }
  · rw [hat, if_pos rfl]
  · refine h.charted.fresh _ hsnone ?_
    rw [block?, hf] at hb
    have := ht.block b (Function.mem_of_block? hb)
    change f'.labels.length ≠ 0
    omega

theorem Surveyed.createBlock (h : Surveyed first fn framed g s)
    (hc : Lower.build (.createBlock name) s = .ok c t) :
    Surveyed first fn framed g t ∧ Later fn g s g t ∧ t.scopes = s.scopes ∧
      t.builder.point = s.builder.point ∧ s.block? c = none ∧ t.block? c = some { ref := c } ∧
      c.fn = fn ∧ ∀ φ, g.known c φ := by
  obtain ⟨r, f, b, hs, -⟩ := h.drawn.at h.site
  obtain ⟨hdrawn, hkeeps, hadv, hscopes, hglobals, hpoint, hold, hnone, hnew, hfn, hknown⟩ :=
    h.drawn.createBlock hs.point hs.block?_eq hc
  have hb := hold r b hs.block?_eq
  obtain ⟨f', hf', hb'⟩ := Option.bind_eq_some_iff.mp hb
  have hat : t.At r f' b := ⟨hpoint.trans hs.point, hf', hb', hs.open_⟩
  have hhere : ∀ φ, s.Here g φ → t.Here g φ := fun φ hφ =>
    (Here.of_at hat).mpr ((Here.of_at hs).mp hφ)
  exact ⟨hdrawn.surveyed h ⟨r, f', b, hat⟩ hscopes hglobals rfl hhere,
    { hkeeps, hadv with here := hhere }, hscopes, hpoint, hnone, hnew, hfn, hknown⟩

theorem Surveyed.allocate (h : Surveyed first fn framed g s) {ty : Ty} {slot : Slot}
    (hx : Lower.build (.allocate name ty) s = .ok slot t) :
    Surveyed first fn framed g t ∧ Later fn g s g t ∧ t.scopes = s.scopes ∧
      t.module.globals = s.module.globals ∧ slot.ty = ty ∧ ∀ f, t.module.function? fn = some f →
        slot.home = .activation f.id ∧ f.slots[slot.index]? = some slot := by
  obtain ⟨r, f, b, hs, rfl, hid, ht⟩ := h.drawn.at h.site
  obtain ⟨hsteps, hadv, -⟩ := (Lower.build_progress (.allocate name ty) s h.ready).ok hx
  obtain ⟨rfl, rfl⟩ := Lower.allocate_eq_ok hs hid hx
  obtain ⟨hsur, hlater⟩ := h.withFunction hs rfl (f.grows_addSlot name ty) hs.block
    (fun _ _ h => h) (fun _ _ h _ => h) (h.ready.advance hsteps hadv)
  refine ⟨hsur, hlater, rfl, rfl, rfl, fun f' hf' => ?_⟩
  rw [function?_withFunction hs.function, if_pos rfl] at hf'
  cases hf'
  exact ⟨rfl, by simp [Function.addSlot]⟩

theorem Keeps.goTo {g₀ : Chart} {s₀ : Lowering} (h : Keeps fn g₀ s₀ g s)
    (hc : s₀.block? c = none) : Keeps fn g₀ s₀ g (s.goTo (some c)) :=
  { h with
    point := fun r hr => by
      cases hr
      exact .inr hc }

end Lowering

end RealScript
