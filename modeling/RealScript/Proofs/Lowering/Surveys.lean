import RealScript.Proofs.Lowering.Charting

/-! # Lowering keeps up a chart

One lemma for each construct says that it keeps up a chart if its parts do, and the induction over
the tree puts them together.
-/

namespace RealScript.Lowering

variable {o : Operation} {slot : Slot} {name : String}

variable {first fn : Nat} {framed : Bool} {g g' : Chart} {s t u : Lowering} {d : Draft}
  {x : Operand}

theorem Ready.function_isSome (h : s.Ready fn framed) : (s.module.function? fn).isSome := by
  obtain ⟨f, -, hf, -⟩ := h.function
  simp [hf]

structure Fits (g : Chart) (s : Lowering) (fn : Nat) (o : Operation) : Prop where
  args : ∀ x ∈ o.args, s.Fit g fn x
  slot : ∀ slot, o.slot = some slot → s.Holds fn slot
  load : o.op = .load → ∀ slot, o.slot = some slot → Reads g s fn slot
  store : o.op = .store → ∀ slot, o.slot = some slot → slot.home = .module → s.depth = 0
  callee : ∀ f, o.callee = some f → s.Callable g fn f

theorem Fits.of_args (hargs : ∀ x ∈ o.args, s.Fit g fn x) (hslot : o.slot = none)
    (hcallee : o.callee = none) : Fits g s fn o where
  args := hargs
  slot _ h := by rw [hslot] at h; cases h
  load _ _ h := by rw [hslot] at h; cases h
  store _ _ h := by rw [hslot] at h; cases h
  callee _ h := by rw [hcallee] at h; cases h

theorem Fits.refs (h : Fits g s fn o) {r : FuncRef} (hr : r ∈ o.refs) : s.Callable g fn r := by
  rcases List.mem_append.mp hr with hr | hr
  · exact h.callee r (by simpa using hr)
  · obtain ⟨x, hx, he⟩ := List.mem_filterMap.mp hr
    cases x with
    | func f =>
      cases he
      exact (h.args _ hx).1
    | _ => cases he

theorem Fits.legal (h : Fits g s fn o) (hs : Drawn first fn framed g s) {f : Function}
    (hf : s.module.function? fn = some f) : o.Legal s.module f where
  slot slot hslot := h.slot slot hslot f hf
  store slot hslot ho hh := hs.entry (h.store ho slot hslot hh) f hf
  refs _ hr := (h.refs hr).offers
  value _ hr := (h.args _ hr).2
  params _ _ _ _ hp := h.args _ hp f hf

theorem Fits.needs (h : Fits g s fn o) {φ : Fact} (hφ : o.Needs g.reach fn φ) : s.Here g φ := by
  cases hφ with
  | result hr => exact h.args _ hr
  | slot ho hslot hreach => exact (h.load ho _ hslot).here hreach
  | function hr hk hlt => exact (h.refs hr).here _ hk hlt

theorem Drawn.place (h : Drawn first fn framed g s) (hsite : ∃ r f b, s.At r f b)
    (ho : Build.Offered (.emit d)) (hd : d.op.isTerminator = false) (htargets : d.targets = [])
    (htype : d.ty = d.toOperation.resultTy) (hfits : Fits g s fn d.toOperation)
    (hx : Lower.build (.emit d) s = .ok x t) :
    Drawn first fn framed g t ∧ (∃ r f b, t.At r f b) ∧ Later fn g s g t ∧ t.scopes = s.scopes ∧
      t.module.globals = s.module.globals ∧ t.Fit g fn x ∧
      (d.op = .store → ∀ slot, d.slot = some slot → t.Here g slot.fact) := by
  obtain ⟨hdrawn, hat, hlater, hscopes, hglobals, i, hi, rfl, hfacts⟩ :=
    h.emit hsite ho hd htargets (fun f hf => hfits.legal h hf) htype (fun φ => hfits.needs) hx
  have hinner : i.isTerminator = false := (congrArg (·.op.isTerminator) hi).trans hd
  refine ⟨hdrawn, hat, hlater, hscopes, hglobals, hfacts _ (by simp [Instr.facts, hinner]),
    fun hstore slot hslot => ?_⟩
  refine hfacts _ (List.mem_append_right _ ?_)
  have hop : i.op = .store := (congrArg Operation.op hi).trans hstore
  have hsl : i.slot = some slot := (congrArg Operation.slot hi).trans hslot
  simp [hop, hsl]

theorem Surveyed.place (h : Surveyed first fn framed g s) (ho : Build.Offered (.emit d))
    (hd : d.op.isTerminator = false) (htargets : d.targets = [])
    (htype : d.ty = d.toOperation.resultTy) (hfits : Fits g s fn d.toOperation)
    (hx : Lower.build (.emit d) s = .ok x t) :
    Surveyed first fn framed g t ∧ Later fn g s g t ∧ t.scopes = s.scopes ∧ t.Fit g fn x ∧
      (d.op = .store → ∀ slot, d.slot = some slot → t.Here g slot.fact) := by
  obtain ⟨hdrawn, hat, hlater, hscopes, hglobals, hfit, hstored⟩ :=
    h.drawn.place h.site ho hd htargets htype hfits hx
  exact ⟨hdrawn.surveyed h hat hscopes hglobals rfl hlater.here, hlater, hscopes, hfit, hstored⟩

theorem Surveyed.compute (h : Surveyed first fn framed g s) (ho : Build.Offered (.emit d))
    (hd : d.op.isTerminator = false) (htargets : d.targets = [])
    (htype : d.ty = d.toOperation.resultTy) (hslot : d.slot = none) (hcallee : d.callee = none)
    (hargs : ∀ x ∈ d.args, s.Fit g fn x) (hx : Lower.build (.emit d) s = .ok x t) :
    Surveyed first fn framed g t ∧ Later fn g s g t ∧ t.Fit g fn x := by
  obtain ⟨hs, hl, -, hf, -⟩ := h.place ho hd htargets htype (.of_args hargs hslot hcallee) hx
  exact ⟨hs, hl, hf⟩

theorem Surveyed.load (h : Surveyed first fn framed g s) (hslot : Reads g s fn slot)
    (hx : Lower.build (.load slot) s = .ok x t) :
    Surveyed first fn framed g t ∧ Later fn g s g t ∧ t.Fit g fn x := by
  obtain ⟨hs, hl, -, hf, -⟩ := h.place (d := .load slot) (.load slot) rfl rfl rfl
    ⟨by simp [Draft.load], fun _ h => by cases h; exact hslot.holds,
      fun _ _ h => by cases h; exact hslot,
      nofun, nofun⟩ hx
  exact ⟨hs, hl, hf⟩

theorem fits_store {v : Operand} (hslot : s.Holds fn slot) (hv : s.Fit g fn v)
    (hdepth : slot.home = .module → s.depth = 0) :
    Fits g s fn (Draft.store slot v).toOperation where
  args y hy := by
    obtain rfl := List.mem_singleton.mp hy
    exact hv
  slot _ h := by cases h; exact hslot
  load h := by cases h
  store _ _ h := by cases h; exact hdepth
  callee _ h := by cases h

theorem Surveyed.store (h : Surveyed first fn framed g s) {v : Operand}
    (hslot : s.Holds fn slot) (hv : s.Fit g fn v) (hdepth : slot.home = .module → s.depth = 0)
    (hx : Lower.build (.store slot v) s = .ok x t) :
    Surveyed first fn framed g t ∧ Later fn g s g t ∧ t.scopes = s.scopes ∧ t.Here g slot.fact := by
  obtain ⟨hs, hl, hsc, -, hstored⟩ := h.place (d := .store slot v) (.store slot v) rfl rfl rfl
    (fits_store hslot hv hdepth) hx
  exact ⟨hs, hl, hsc, hstored rfl slot rfl⟩

theorem Surveyed.callable (h : Surveyed first fn framed g s) {f : FuncRef}
    (hf : s.module.Offers f) :
    s.Callable g fn f := by
  refine ⟨hf, fun k hk hlt => h.own k hk ?_⟩
  obtain ⟨⟨f', hf', -⟩, -⟩ := hf
  exact Nat.lt_of_lt_of_le hlt (h.charted.reach _ _ hf')

theorem mem_of_lookup {vars : Bindings}
    (h : vars.lookup name = some slot) : (name, slot) ∈ vars := by
  induction vars with
  | nil => cases h
  | cons x vars ih =>
    obtain ⟨name', slot'⟩ := x
    by_cases hn : name = name'
    · subst hn
      rw [List.lookup_cons_self] at h
      exact Option.some.inj h ▸ List.mem_cons_self
    · rw [List.lookup_cons, show (name == name') = false by simpa using hn] at h
      exact List.mem_cons_of_mem _ (ih h)

theorem Surveyed.lookup (h : Surveyed first fn framed g s)
    (hslot : s.scopes.lookup name = some slot) : Reads g s fn slot := by
  rcases h.ready.lookup hslot with hg | ⟨frame, hframe, howner, hx⟩
  · have hmem : slot ∈ s.module.globals := by
      rw [← h.charted.globals]
      exact List.mem_map.mpr ⟨_, mem_of_lookup hg, rfl⟩
    obtain ⟨k, hk⟩ := List.getElem?_of_mem hmem
    obtain ⟨hhome, rfl⟩ := h.charted.homes k slot hk
    refine ⟨fun _ _ => .inl ⟨hhome, hk⟩, fun hr => ?_⟩
    have := h.own slot.index (hr hhome) (List.getElem?_eq_some_iff.mp hk).1
    rwa [Slot.fact, hhome]
  · have hmem := mem_of_lookup hx
    refine ⟨fun f' hf' => .inr ?_, fun _ => h.stored frame hframe howner _ hmem⟩
    obtain ⟨f'', hf'', hhome, hs⟩ := h.charted.locals frame hframe _ hmem
    cases (howner ▸ hf'').symm.trans hf'
    exact ⟨hhome, hs⟩

def withGlobal (s : Lowering) (name : String) (ty : Ty) : Lowering :=
  { s.setModule (s.module.newGlobal name ty).2 with
    scopes := { s.scopes with
      globals := s.scopes.globals ++ [(name, (s.module.newGlobal name ty).1)] } }

theorem globals_withGlobal (s : Lowering) (name : String) (ty : Ty) :
    (s.withGlobal name ty).module.globals =
      s.module.globals ++ [⟨name, ty, .module, s.module.globals.length⟩] := rfl

theorem Charted.withGlobal (hc : s.Charted first g) (name : String) (ty : Ty) :
    (s.withGlobal name ty).Charted first g where
  need := hc.need
  edge := hc.edge
  entry := hc.entry
  fresh := hc.fresh
  legal r f b hfirst hf hb i hi := (hc.legal r f b hfirst hf hb i hi).mono (List.prefix_append _ _)
    (fun k f hf => ⟨f, hf, rfl⟩) rfl List.prefix_rfl
  reach k f hf := by
    rw [globals_withGlobal, List.length_append]
    exact Nat.le_add_right_of_le (hc.reach k f hf)
  globals := by
    change (s.scopes.globals ++ [_]).map Prod.snd = s.module.globals ++ [_]
    rw [List.map_append, hc.globals]
    rfl
  homes k slot hk := by
    rw [globals_withGlobal] at hk
    rcases Nat.lt_or_ge k s.module.globals.length with hlt | hge
    · rw [List.getElem?_append_left hlt] at hk
      exact hc.homes k slot hk
    · rw [List.getElem?_append_right hge] at hk
      have hzero : k - s.module.globals.length = 0 := by
        have := (List.getElem?_eq_some_iff.mp hk).1
        simp only [List.length_singleton] at this
        omega
      rw [hzero] at hk
      cases hk
      exact ⟨rfl, by dsimp only; omega⟩
  locals := hc.locals

theorem Surveyed.newVariable (h : Surveyed first fn framed g s) {pos : Position} {ty : Ty}
    {duplicate : Cause}
    (htop : s.scopes.inner = [] → Plain name ∧ s.scopes.globals.lookup name = none ∧
      s.module.find? name = none)
    (hx : Lower.newVariable pos name ty duplicate s = .ok slot t) :
    Drawn first fn framed g t ∧ (∃ r f b, t.At r f b) ∧ Later fn g s g t ∧ t.Holds fn slot ∧
      (slot.home = .module → s.depth = 0) ∧
      (∀ frame ∈ t.scopes.inner, frame.owner.id = fn → ∀ x ∈ frame.vars, x.2 = slot ∨
        s.Here g x.2.fact) ∧
      ∀ k, g.reach fn ≤ k → k < t.module.globals.length → slot.fact = .stored .module k ∨
        s.Here g (.stored .module k) := by
  obtain ⟨hsteps, hadv⟩ := (Lower.newVariable_goes h.ready htop).ok hx
  have hready := h.ready.advance hsteps hadv
  obtain ⟨r, f, b, hs, rfl, hid, ht⟩ := h.drawn.at h.site
  cases hinner : s.scopes.inner with
  | nil =>
    obtain ⟨-, hglobal, -⟩ := htop hinner
    rw [Lower.newVariable_run_top hinner hglobal] at hx
    cases hx
    change (s.withGlobal name ty).Ready r.fn framed at hready
    change s.Advances (s.withGlobal name ty) at hadv
    have hdepth := h.ready.top hinner
    have hat : (s.withGlobal name ty).At r f b := ⟨hs.point, hs.function, hs.block, hs.open_⟩
    have hkeeps : Keeps r.fn g s g (s.withGlobal name ty) :=
      { blocks := fun _ _ h _ => h
        point := fun _ h => .inl h
        known := fun _ _ _ => rfl
        reach := fun _ _ _ => rfl
        function := fun _ f h => ⟨f, h, .refl f⟩
        others := fun _ _ _ h => h
        new := fun _ _ _ hn hf => by
          change s.module.function? _ = _ at hf
          rw [hn] at hf
          cases hf
        globals := List.prefix_append _ _ }
    refine ⟨⟨hready, h.charted.withGlobal name ty, h.first_le, h.entry⟩, ⟨r, f, b, hat⟩,
      { hkeeps, hadv with here := fun φ hφ => (Here.of_at hat).mpr ((Here.of_at hs).mp hφ) },
      fun _ _ => .inl ⟨rfl, ?_⟩, fun _ => hdepth, fun frame hframe => ?_, fun k hk hlt => ?_⟩
    · change (s.module.globals ++ [_])[s.module.globals.length]? = _
      simp [Module.newGlobal]
    · have hframe : frame ∈ s.scopes.inner := hframe
      rw [hinner] at hframe
      cases hframe
    · rw [show Module.globals _ = s.module.globals ++ [_] from rfl, List.length_append,
        List.length_singleton] at hlt
      rcases Nat.lt_or_ge k s.module.globals.length with hold | hnew
      · exact .inr (h.own k hk hold)
      · obtain rfl : k = s.module.globals.length := by omega
        exact .inl rfl
  | cons frame outer =>
    obtain ⟨f', hf', hfn, -⟩ := h.ready.function
    cases hs.function.symm.trans hfn
    rw [Lower.newVariable_run_inner hinner hf'] at hx
    dsimp only at hx
    split at hx
    · cases hx
    · cases hx
      have hwith : s.setModule (s.module.modify f.id fun _ => (f.addSlot name ty).2) =
          s.withFunction r.fn (f.addSlot name ty).2 := by rw [hid]; rfl
      rw [hwith] at hready hadv hsteps ⊢
      have hcharted := h.charted.withFunction hs.function (f.grows_addSlot name ty) fun _ _ h _ => h
      have hfun : (s.withFunction r.fn (f.addSlot name ty).2).module.function? r.fn =
          some (f.addSlot name ty).2 := by rw [function?_withFunction hs.function, if_pos rfl]
      have howner : frame.owner.id = r.fn := h.ready.owner frame (by rw [hinner]; rfl)
      have hat : At { s.withFunction r.fn (f.addSlot name ty).2 with
          scopes := { s.scopes with inner := { frame with vars := frame.vars ++
            [(name, (f.addSlot name ty).1)] } :: outer } } r (f.addSlot name ty).2 b :=
        ⟨hs.point, hfun, hs.block, hs.open_⟩
      have hslots : (f.addSlot name ty).2.slots[(f.addSlot name ty).1.index]? =
          some (f.addSlot name ty).1 := by simp [Function.addSlot]
      have hlocals : ∀ frame' ∈ { frame with vars := frame.vars ++ [(name, (f.addSlot name ty).1)] }
        :: outer, ∀ x ∈ frame'.vars, ∃ f',
            (s.withFunction r.fn (f.addSlot name ty).2).module.function?
            frame'.owner.id = some f' ∧ x.2.home = .activation f'.id ∧ f'.slots[x.2.index]? =
              some x.2 := by
        intro frame' hframe' x hx
        have hold : ∀ frame₀ ∈ s.scopes.inner, ∀ x ∈ frame₀.vars, _ := hcharted.locals
        rcases List.mem_cons.mp hframe' with rfl | hframe'
        · rcases List.mem_append.mp hx with hx | hx
          · exact hold frame (by rw [hinner]; exact List.mem_cons_self) x hx
          · obtain rfl := List.mem_singleton.mp hx
            exact ⟨(f.addSlot name ty).2, by rw [howner]; exact hfun, rfl, hslots⟩
        · exact hold frame' (by rw [hinner]; exact List.mem_cons_of_mem _ hframe') x hx
      have hkeeps := (h.withFunction hs rfl (f.grows_addSlot name ty) hs.block (fun _ _ h => h)
        (fun _ _ h _ => h) (by
          obtain ⟨hb⟩ := hready
          refine ⟨⟨hb.numbered, hb.complete, hb.distinct, hb.created, hb.point⟩, h.ready.inside,
            h.ready.owner, h.ready.top, h.ready.frame⟩)).2
      refine ⟨⟨hready, hcharted.congr rfl rfl hlocals, h.first_le, ?_⟩, ⟨r, _, b, hat⟩, ?_,
        ?_, by simp [Function.addSlot],
        fun frame' hframe' ho x hx => ?_, fun k hk hlt => .inr (h.own k hk hlt)⟩
      · intro hdepth f' hf'
        cases hfun.symm.trans hf'
        exact h.entry hdepth f hs.function
      · exact
          { hkeeps.toKeeps, hadv with
            blocks := hkeeps.blocks
            point := hkeeps.point
            function := hkeeps.function
            others := hkeeps.others
            new := hkeeps.new
            globals := hkeeps.globals
            here := fun φ hφ => (Here.of_at hat).mpr ((Here.of_at hs).mp hφ) }
      · intro f' hf'
        cases hfun.symm.trans hf'
        exact .inr ⟨rfl, hslots⟩
      · rcases List.mem_cons.mp hframe' with rfl | hframe'
        · rcases List.mem_append.mp hx with hx | hx
          · exact .inr (h.stored frame (by rw [hinner]; exact List.mem_cons_self) ho x hx)
          · obtain rfl := List.mem_singleton.mp hx
            exact .inl rfl
        · exact .inr
            (h.stored frame' (by rw [hinner]; exact List.mem_cons_of_mem _ hframe') ho x hx)

theorem Surveyed.declare (h : Surveyed first fn framed g s) {pos : Position}
    {name : String} {ty : Ty}
    {duplicate : Cause} {slot : Slot} {v : Operand}
    (htop : s.scopes.inner = [] → Plain name ∧ s.scopes.globals.lookup name = none ∧
      s.module.find? name = none) (hv : s.Fit g fn v)
    (hx : Lower.newVariable pos name ty duplicate s = .ok slot t)
    (hstore : Lower.build (.store slot v) t = .ok x u) :
    Surveyed first fn framed g u ∧ Later fn g s g u ∧ u.Holds fn slot ∧ u.Here g slot.fact ∧
      (slot.home = .module → u.depth = 0) := by
  obtain ⟨hdrawn, hsite, hlater, hholds, hdepth, hseen, hown⟩ := h.newVariable htop hx
  have hsome := h.ready.function_isSome
  obtain ⟨hdrawn', hsite', hlater', hscopes, hglobals, -, hstored⟩ :=
    hdrawn.place (d := .store slot v) hsite (.store slot v) rfl rfl rfl
      (fits_store hholds (hv.later hlater hsome) fun hh => hlater.depth.trans (hdepth hh)) hstore
  have hslot := hstored rfl slot rfl
  have hhere : ∀ φ, s.Here g φ → u.Here g φ := fun φ hφ => hlater'.here φ (hlater.here φ hφ)
  refine ⟨⟨hdrawn'.ready, hdrawn'.charted, hdrawn'.first_le, hsite', fun frame hframe ho x hx => ?_,
    fun k hk hlt => ?_, hdrawn'.entry⟩, hlater.trans hlater',
    hholds.keeps hlater'.toKeeps hdrawn.ready.function_isSome, hslot,
    fun hh => hlater'.depth.trans (hlater.depth.trans (hdepth hh))⟩
  · rcases hseen frame (hscopes ▸ hframe) ho x hx with he | hφ
    · rw [he]
      exact hslot
    · exact hhere _ hφ
  · rcases hown k hk (hglobals ▸ hlt) with he | hφ
    · rw [← he]
      exact hslot
    · exact hhere _ hφ

end RealScript.Lowering
