import RealScript.Proofs.Code.Typed
import RealScript.Proofs.Lowering.Sessions
import RealScript.Proofs.Lowering.Traversal

/-! # Lawful code

The charts of finished functions say what has been done on every path through them. With
verification this makes their code lawful: it is sound, it uses what is there at the right types,
only entries of units write globals, and what is read has been stored.
-/

namespace RealScript

variable {φ : Fact} {i : Instr} {bs : List Block} {ds : List ResultRef} {n : Nat}
  {reach : Nat → Nat}

def Recorded (bs : List Block) (ds : List ResultRef) (φ : Fact) : Prop :=
  ∃ j ∈ code bs, φ ∈ j.facts ∧ j.ref ∈ ds

def Founded (reach : Nat → Nat) (fn : Nat) (bs : List Block) : Prop :=
  ∀ ds b, Path bs ds b → ∀ pre i post, b.instrs = pre ++ i :: post → ∀ φ,
    i.toOperation.Needs reach fn φ → Recorded bs (ds ++ pre.map (·.ref)) φ

/-- On every path to an instruction, the results that it uses have been computed, whether they are
kept in registers or void. -/
def DefinesOperands (bs : List Block) : Prop :=
  ∀ ds b, Path bs ds b → ∀ pre i post, b.instrs = pre ++ i :: post → ∀ r, .result r ∈ i.args →
    Recorded bs (ds ++ pre.map (·.ref)) (.result r)

theorem Founded.definesOperands {fn : Nat} (h : Founded reach fn bs) : DefinesOperands bs :=
  fun ds b hp pre i post hi _ hr => h ds b hp pre i post hi _ (.result hr)

structure Function.Lawful (m : Module) (reach : Nat → Nat) (f : Function) : Prop where
  sound : Sound f.registers f.blocks
  legal : ∀ i ∈ code f.blocks, i.Legal m f
  typed : ∀ i ∈ code f.blocks, i.toOperation.Typed f.ref.ret
  results : ∀ i ∈ code f.blocks, ∀ r, .result r ∈ i.args → r.register = none → r.ty = .void
  founded : Founded reach f.id f.blocks

theorem Function.Lawful.mono {m m' : Module} {reach reach' : Nat → Nat} {f : Function}
    (h : f.Lawful m reach) (hg : m.globals <+: m'.globals)
    (hm : ∀ k f, m.function? k = some f → ∃ g, m'.function? k = some g ∧ g.ref = f.ref)
    (hr : ∀ k f, m.function? k = some f → reach' k = reach k) {g : Function}
    (hf : m.function? f.id = some g) : f.Lawful m' reach' where
  sound := h.sound
  legal i hi := (h.legal i hi).mono hg hm rfl List.prefix_rfl
  typed := h.typed
  results := h.results
  founded ds b hp pre i post hi φ hn := by
    refine h.founded ds b hp pre i post hi φ ?_
    cases hn with
    | result hr => exact .result hr
    | slot ho hs hh => exact .slot ho hs fun he => hr f.id g hf ▸ hh he
    | @function r j hmem hle hlt =>
      obtain ⟨⟨g', hg', -⟩, -⟩ := (h.legal i (mem_code.mpr ⟨b, hp.mem, by simp [hi]⟩)).refs r hmem
      exact .function hmem (hr f.id g hf ▸ hle) (hr r.id g' hg' ▸ hlt)

theorem Recorded.mono {ds' : List ResultRef} (h : Recorded bs ds φ)
    (hs : ds ⊆ ds') : Recorded bs ds' φ := by
  obtain ⟨j, hj, hφ, hr⟩ := h
  exact ⟨j, hj, hφ, hs hr⟩

theorem Instr.result_mem_facts {r : ResultRef} :
    .result r ∈ i.facts ↔ i.isTerminator = false ∧ i.ref = r := by
  have hstored : .result r ∉ if i.op = .store then (i.slot.map Slot.fact).toList else [] := by
    split
    · cases hs : i.slot <;> simp [Slot.fact]
    · exact List.not_mem_nil
  rw [facts, List.mem_append, or_iff_left hstored]
  cases i.isTerminator <;> simp [eq_comm]

theorem mem_of_recorded_result {r : ResultRef} (h : Recorded bs ds (.result r)) : r ∈ ds := by
  obtain ⟨j, -, hφ, hr⟩ := h
  exact (Instr.result_mem_facts.mp hφ).2 ▸ hr

theorem DefinesOperands.definesBeforeUse (h : DefinesOperands bs) : DefinesBeforeUse bs := by
  intro ds b hp pre i post hi r hr _
  obtain ⟨x, hx, he⟩ := List.mem_filterMap.mp hr
  cases x with
  | result =>
    cases he
    exact mem_of_recorded_result (h ds b hp pre i post hi r hx)
  | _ => cases he

theorem Instr.op_of_stored {home : Home} {k : Nat} (h : .stored home k ∈ i.facts) :
    i.op = .store := by
  by_contra hne
  simp [facts, hne] at h

namespace Lowering

variable {first k : Nat} {g : Chart} {s t : Lowering} {f : Function}

structure Closed (t : Lowering) (k : Nat) (f : Function) : Prop where
  function : t.module.function? k = some f
  id : f.id = k
  tidy : f.Tidy
  code : f.native = false
  verified : f.verify = .ok ()
  head : ∃ b, f.blocks.head? = some b ∧ b.ref = ⟨k, 0, "entry"⟩

theorem Closed.block? (h : t.Closed k f) {b : Block} (hb : b ∈ f.blocks) :
    b.ref.fn = k ∧ t.block? b.ref = some b := by
  have hfn : b.ref.fn = k := (Function.block_of_verify h.code h.verified hb).1.trans h.id
  refine ⟨hfn, ?_⟩
  rw [Lowering.block?, hfn, h.function]
  exact Function.block?_eq_some h.tidy hb

theorem Charted.recorded (hc : t.Charted first g) (hk : first ≤ k) (h : t.Closed k f) {b : Block}
    (hp : Path f.blocks ds b) (hφ : g.known b.ref φ) :
    Recorded f.blocks ds φ := by
  induction hp generalizing φ with
  | entry hb =>
    obtain ⟨b', hb', href⟩ := h.head
    cases hb.symm.trans hb'
    rw [href] at hφ
    exact absurd hφ (hc.entry k φ)
  | @step ds b c hp hs hc' ih =>
    obtain ⟨hfn, hblock⟩ := h.block? hp.mem
    rcases hc.edge b.ref b c.ref (hfn ▸ hk) hblock hs φ hφ with hb | ⟨i, hi, hφi⟩
    · exact (ih hb).mono (List.subset_append_left _ _)
    · exact ⟨i, mem_code.mpr ⟨b, hp.mem, hi⟩, hφi, List.mem_append_right _ (List.mem_map_of_mem hi)⟩

theorem Charted.recorded_needs (hc : t.Charted first g) (hk : first ≤ k) (h : t.Closed k f)
    {b : Block} (hp : Path f.blocks ds b) {pre post : List Instr}
    (hi : b.instrs = pre ++ i :: post) (hφ : i.toOperation.Needs g.reach k φ) :
    Recorded f.blocks (ds ++ pre.map (·.ref)) φ := by
  obtain ⟨hfn, hblock⟩ := h.block? hp.mem
  rcases hc.need b.ref b (hfn ▸ hk) hblock pre i post hi φ (hfn.symm ▸ hφ) with hb | ⟨j, hj, hφj⟩
  · exact (hc.recorded hk h hp hb).mono (List.subset_append_left _ _)
  · exact ⟨j, mem_code.mpr ⟨b, hp.mem, by rw [hi]; exact List.mem_append_left _ hj⟩, hφj,
      List.mem_append_right _ (List.mem_map_of_mem hj)⟩

theorem Charted.lawful (hchart : t.Charted first g) (hk : first ≤ k) (h : t.Closed k f) :
    f.Lawful t.module g.reach where
  sound := by
    have hdefines : DefinesOperands f.blocks := fun _ _ hp _ _ _ hi _ hr =>
      hchart.recorded_needs hk h hp hi (.result hr)
    exact Function.sound_of_verify h.tidy h.code h.verified hdefines.definesBeforeUse
  legal i hi := by
    obtain ⟨b, hb, hib⟩ := mem_code.mp hi
    obtain ⟨hfn, -⟩ := h.block? hb
    exact hchart.legal b.ref f b (hfn ▸ hk) (hfn ▸ h.function)
      (Function.block?_eq_some h.tidy hb) i hib
  typed _ hi := Function.typed_of_verify h.tidy h.code h.verified hi
  results i hi r hr hn := by
    obtain ⟨b, hb, hib⟩ := mem_code.mp hi
    obtain ⟨_, _, hw⟩ := Function.operands_of_verifyOperation (h.tidy.instr i hi).plain
      ((Function.block_of_verify h.code h.verified hb).2.2 i hib) _ hr
    obtain ⟨j, hj, rfl⟩ := Function.defined_of_verifyOperand hw
    obtain ⟨c, hc, hjc⟩ := mem_code.mp hj
    obtain ⟨hfn, -⟩ := h.block? hc
    exact (hchart.legal c.ref f c (hfn ▸ hk) (hfn ▸ h.function)
      (Function.block?_eq_some h.tidy hc) j
      hjc).register.mp hn
  founded _ _ hp _ _ _ hi _ hφ := hchart.recorded_needs hk h hp hi (h.id ▸ hφ)

def openingChart (s : Lowering) (reach : Nat → Nat) : Chart where
  known r _ := r.index ≠ 0
  reach k := if k = s.module.store.size then s.module.globals.length else reach k

structure Bound (s : Lowering) : Prop where
  globals : s.scopes.globals.map Prod.snd = s.module.globals
  homes : ∀ (k : Nat) (slot : Slot), s.module.globals[k]? = some slot →
    slot.home = .module ∧ slot.index = k

theorem Settled.surveyed (hs : s.Settled) (hb : s.Bound)
    (hreach : ∀ k f, s.module.function? k = some f → reach k ≤ s.module.globals.length)
    (hfree : s.module.find? (unitName n) = none) :
    Surveyed s.module.store.size s.module.store.size false (s.openingChart reach)
      (s.push (.opened s.module.store.size (unitName n) [])
      (some ⟨s.module.store.size, 0, "entry"⟩)) := by
  have hstep := @Step.define s (unitName n) [] hfree fun h => absurd h (not_plain_unitName n)
  have hempty : ∀ r b, s.module.store.size ≤ r.fn →
    (s.push (.opened s.module.store.size (unitName n) [])
      (some ⟨s.module.store.size, 0, "entry"⟩)).block? r = some b → b.instrs = [] := by
    intro r b hr hb
    rw [block?_push] at hb
    split at hb
    · exact block?_opened hb
    · obtain ⟨f, hf, -⟩ := Option.bind_eq_some_iff.mp hb
      exact absurd (lt_size_of_function? hf) (Nat.not_lt.mpr hr)
  have hreach' : (s.openingChart reach).reach s.module.store.size =
    s.module.globals.length := if_pos rfl
  refine
    { ready := ⟨hs.orderly.step hstep, rfl, ?_, fun _ => hs.depth, nofun⟩
      charted :=
        { need := fun r b hr hb pre i post hi => ?_
          edge := fun r b c hr hb hc => ?_
          entry := fun k φ h => h rfl
          fresh := fun r _ h _ => h
          legal := fun r f b hr hf hb i hi => ?_
          reach := fun k f hf => ?_
          globals := hb.globals
          homes := hb.homes
          locals := ?_ }
      first_le := Nat.le_refl _
      site := ⟨_, _, _, at_opened s (unitName n) []⟩
      stored := ?_
      own := fun k hk hlt => ?_
      entry := fun _ f hf => ?_ }
  · simp [push, hs.inner]
  · rw [hempty r b hr hb] at hi
    simp at hi
  · simp [Block.successors, Block.terminator?, hempty r b hr hb] at hc
  · rw [hempty r b hr (by rw [block?, hf]; exact hb)] at hi
    cases hi
  · rw [function?_push] at hf
    split at hf
    · subst k
      exact Nat.le_of_eq hreach'
    · rw [show (s.openingChart reach).reach k = reach k from if_neg ‹_›]
      exact hreach k f hf
  · simp [push, hs.inner]
  · simp [push, hs.inner]
  · rw [hreach'] at hk
    exact absurd hlt (Nat.not_lt.mpr hk)
  · rw [function?_push, if_pos rfl] at hf
    cases hf
    exact ⟨n, rfl⟩

end Lowering

/-- The last instruction of a function finds the globals from `n` to `n'` stored. -/
def Function.EndsStored (f : Function) (n n' : Nat) : Prop :=
  ∀ ds b, Path f.blocks ds b → ∀ pre i post, b.instrs = pre ++ i :: post →
    i.ref.index + 1 = f.emitted →
    ∀ k, n ≤ k → k < n' → Recorded f.blocks (ds ++ pre.map (·.ref)) (.stored .module k)

namespace Lowering

open Stateful

variable {first k : Nat} {g g' : Chart} {s t : Lowering} {f : Function}

theorem Charted.endsStored {framed : Bool} (hs : Surveyed first k framed g s)
    {x : Operand} (hx : Lower.build (.ret (some (.real 0))) s = .ok x t) (ht : t.Charted first g')
    (hknown : ∀ c φ, g.known c φ → g'.known c φ) (hf : t.Closed k f) (hn : g.reach k = n) :
    f.EndsStored n s.module.globals.length := by
  obtain ⟨r, f₀, b₀, hat, rfl, hid, htidy⟩ := hs.drawn.at hs.site
  obtain ⟨-, rfl⟩ := Lower.emit_eq_ok hat hid hx
  have hf₀ := hf.function
  rw [function?_withFunction hat.function, if_pos rfl] at hf₀
  cases hf₀
  intro ds b hp pre i post hi hlast k hk hlt
  -- The last instruction is the return, at the end of the open block.
  have hblock := Function.block?_eq_some hf.tidy hp.mem
  rw [Function.block?_emit] at hblock
  have hold : ∀ c, f₀.block? c = some b → False := by
    intro c hc
    have := (htidy.instr i (mem_code.mpr ⟨b, Function.mem_of_block? hc, by rw [hi]; simp⟩)).index
    change i.ref.index + 1 = f₀.emitted + 1 at hlast
    omega
  split at hblock
  · rename_i href
    rw [href, hat.block] at hblock
    have hb : b₀.push (f₀.nextInstr r (.ret (some (.real 0)))) = b := Option.some.inj hblock
    have hpre : pre = b₀.instrs := by
      rw [← hb] at hi
      rcases List.eq_nil_or_concat post with rfl | ⟨post, last, rfl⟩
      · exact (List.append_inj' (show b₀.instrs ++ [_] = pre ++ [i] from hi) rfl).1.symm
      · rw [List.concat_eq_append, ← List.cons_append, ← List.append_assoc] at hi
        obtain ⟨hi, -⟩ := List.append_inj' (show b₀.instrs ++ [_] = _ ++ [last] from hi) rfl
        have := (htidy.instr i (mem_code.mpr ⟨b₀, Function.mem_of_block? hat.block, by
          rw [hi]; simp⟩)).index
        change i.ref.index + 1 = f₀.emitted + 1 at hlast
        omega
    have hhere := (Here.of_at hat).mp (hs.own k (hn ▸ hk) hlt)
    rcases hhere with hkn | ⟨j, hj, hφ⟩
    · have hkn' : g'.known b.ref (.stored .module k) := by
        rw [href, ← Function.ref_of_block? hat.block]
        exact hknown _ _ hkn
      exact (ht.recorded hs.first_le hf hp hkn').mono (List.subset_append_left _ _)
    · refine ⟨j, mem_code.mpr ⟨b, hp.mem, ?_⟩, hφ, List.mem_append_right _ (List.mem_map_of_mem ?_)⟩
      · rw [hi, hpre]
        exact List.mem_append_left _ hj
      · rw [hpre]
        exact hj
  · exact (hold b.ref hblock).elim

structure Adds (reach reach' : Nat → Nat) (n : Nat) (s t : Lowering) : Prop where
  old : ∀ k, k < s.module.store.size → reach' k = reach k
  entry : reach' s.module.store.size = s.module.globals.length
  reach : ∀ k f, t.module.function? k = some f → reach' k ≤ t.module.globals.length
  bound : t.Bound
  lawful : ∀ k f, s.module.store.size ≤ k → t.module.function? k = some f → f.native = false →
    f.Lawful t.module reach'
  made : ∀ k f, s.module.store.size < k → t.module.function? k = some f → f.Made
  hosted : t.Hosted s.module.store.size
  unit : ∃ f, t.module.function? s.module.store.size = some f ∧
    f.ref = ⟨s.module.store.size, unitName n, [], .real⟩ ∧ f.native = false ∧
    f.EndsStored s.module.globals.length t.module.globals.length

theorem adds_of_unit (hs : s.Settled) (hb : s.Bound)
    (hreach : ∀ k f, s.module.function? k = some f → reach k ≤ s.module.globals.length)
    {p : Program} (hp : Node.ShapedAll .top p) {ref : FuncRef}
    (hx : Lower.unit p (unitName n) s = .ok ref t) :
    ref = ⟨s.module.store.size, unitName n, [], .real⟩ ∧ ∃ reach', Adds reach reach' n s t := by
  have hplain : Node.NamedAll Plain p := Node.ShapedAll.named (fun _ => IsName.plain)
    (fun _ => Lower.plain_of_mem_reservedNames) _ p hp
  obtain ⟨hsteps, -⟩ := (Lower.unit_goes hs p hplain n).ok hx
  have ho := hs.orderly.steps hsteps
  have htouched := (Touched.refl hs.created).steps hs.orderly hsteps
  have hhosted := (hsteps.hosted hs.orderly (n := s.module.store.size) fun k f hk hf =>
    absurd (lt_size_of_function? hf) (Nat.not_lt.mpr hk)).2
  unfold Lower.unit at hx
  obtain ⟨f', s₁, hdefine, hx⟩ := bind_eq_ok hx
  obtain ⟨hfree, rfl, rfl⟩ := Lower.define_eq_ok hs.orderly hdefine
  obtain ⟨_, s₂, hall, hx⟩ := bind_eq_ok hx
  obtain ⟨_, s₃, hclose, hx⟩ := bind_eq_ok hx
  obtain ⟨_, s₄, hverify, hx⟩ := bind_eq_ok hx
  obtain ⟨_, s₅, hmove, hend⟩ := bind_eq_ok hx
  cases hend
  obtain ⟨rfl, hdone⟩ := Lower.verify_eq_ok hverify
  obtain ⟨-, rfl⟩ := EStateM.Result.ok.inj hmove
  have h₁ := hs.surveyed hb hreach hfree
  obtain ⟨g₂, h₂, hl₂, -⟩ := Lower.lowerAll_surveys .top p hp false _ _ _ _ h₁ _ _ hall
  obtain ⟨_, hret⟩ := Lower.closeFunction_eq_ok h₂.site hclose
  obtain ⟨g₃, h₃, hj₃⟩ := h₂.ret (v := .real 0) trivial hret
  have hk := hj₃.keeps _ _ hl₂.toKeeps (fun c hc => by cases hc)
  have hopened : (s.push (.opened s.module.store.size (unitName n) [])
      (some ⟨s.module.store.size, 0, "entry"⟩)).module.function? s.module.store.size =
      some (.opened s.module.store.size (unitName n) []) := (function?_push ..).trans (if_pos rfl)
  obtain ⟨F, hF, hgrows⟩ := hk.function _ _ hopened
  -- What is new in the module is tidy, as it was created in this unit.
  have htidy : ∀ k f, s.module.store.size ≤ k → s₄.module.function? k = some f →
    f.id = k ∧ f.Tidy := by
    intro k f hk hf
    have hmem : f.ref ∈ s₄.created := by
      have hcreated : s₄.created = _ := htouched.created
      rw [hcreated]
      refine List.mem_map_of_mem (List.mem_of_getElem? (i := k - s.module.store.size) ?_)
      rw [List.getElem?_drop, Nat.add_sub_cancel' hk, Array.getElem?_toList]
      exact hf
    have hid : f.id = k := ho.numbered k f hf
    obtain ⟨f', hf', -, -, ht⟩ := ho.created f.ref hmem
    cases ((congrArg s₄.module.function? hid).trans hf).symm.trans hf'
    exact ⟨hid, ht⟩
  have hmade : ∀ k f, s.module.store.size < k → s₄.module.function? k = some f → f.Made := by
    intro k f hlt hf
    refine hk.new k f (Nat.ne_of_gt hlt) ?_ hf
    rw [function?_push, if_neg (Nat.ne_of_gt hlt)]
    exact Array.getElem?_eq_none (Nat.le_of_lt hlt)
  have hclosed : s₄.Closed s.module.store.size F := by
    obtain ⟨hid, ht⟩ := htidy _ F (Nat.le_refl _) hF
    obtain ⟨b, hb, hb'⟩ := hgrows.blocks.head?
      (b := { ref := ⟨s.module.store.size, 0, "entry"⟩ }) rfl
    exact ⟨hF, hid, ht, hgrows.native, hdone F hF, b, hb, hb'.1⟩
  have hlawful : ∀ k f, s.module.store.size ≤ k → s₄.module.function? k = some f →
    f.native = false → f.Lawful s₄.module g₃.reach := by
    intro k f hk hf hn
    rcases Nat.eq_or_lt_of_le hk with rfl | hlt
    · cases hF.symm.trans hf
      exact h₃.charted.lawful (Nat.le_refl _) hclosed
    · obtain ⟨hid, ht⟩ := htidy k f hk hf
      have hm := hmade k f hlt hf
      refine h₃.charted.lawful hk ⟨hf, hid, ht, hn, ?_, ?_⟩
      · exact hm.checked.resolve_left (by simp [hn])
      · rw [← hid]
        exact hm.head.resolve_left (by simp [hn])
  have hreachSize : g₃.reach s.module.store.size = s.module.globals.length :=
    (hk.reach _ _ hopened).trans (if_pos rfl)
  refine ⟨rfl, g₃.reach, fun k hlt => ?_, hreachSize, h₃.charted.reach,
    ⟨h₃.charted.globals, h₃.charted.homes⟩, hlawful, hmade, hhosted, F, hF, ?_, hgrows.native, ?_⟩
  · have hf : s.module.function? k = some (s.module.store[k]) := Array.getElem?_eq_getElem hlt
    have hne := Nat.ne_of_lt hlt
    rw [hk.reach k _ ((function?_push ..).trans (by rw [if_neg hne, hf]))]
    exact if_neg hne
  · rw [hgrows.ref]
    rfl
  · have hends := Charted.endsStored h₂ hret h₃.charted
      (fun c φ hφ => (hj₃.known c φ).mpr ⟨hφ, fun hc => by cases hc⟩) hclosed
      ((hl₂.reach _ _ hopened).trans (if_pos rfl))
    rw [← hj₃.globals] at hends
    exact hends

end Lowering

end RealScript
