import RealScript.Proofs.Code.Verified
import RealScript.Proofs.Optimize.Branches
import RealScript.Proofs.Optimize.Merge
import RealScript.Proofs.Optimize.Results

/-! # Optimised code behaves like the code that it came from

Each pass keeps code sound and keeps its behaviour, so a chain of passes does. Replacing functions
of a module by their optimised forms, one after the other, therefore changes no run.
-/

namespace RealScript

namespace Optimize

open Relation

variable {n : Nat}

inductive Pass : List Block → List Block → Prop where
  | foldConstants (bs : List Block) : Pass bs (foldConstants bs).2
  | foldBranches (bs : List Block) : Pass bs (foldBranches bs).2
  | removeUnreachable (bs : List Block) : Pass bs (removeUnreachable bs).2
  | merge {bs bs' : List Block} : mergeOnce? bs = some bs' → Pass bs bs'
  | dropUnused (bs : List Block) : Pass bs (dropUnused bs)

abbrev Chain : List Block → List Block → Prop := ReflTransGen Pass

theorem Pass.preserves {bs bs' : List Block} (h : Pass bs bs') (S : Sound n bs) :
    Preserves n bs bs' := by
  cases h with
  | foldConstants => exact preserves_foldConstants S
  | foldBranches => exact preserves_foldBranches S
  | removeUnreachable => exact preserves_removeUnreachable S
  | merge h =>
    obtain ⟨b, next, M, rfl⟩ := mergeOnce?_eq_some S.wired h
    exact M.preserves S
  | dropUnused => exact preserves_dropUnused S

theorem Chain.sound {bs bs' : List Block} (h : Chain bs bs') (S : Sound n bs) : Sound n bs' := by
  induction h with
  | refl => exact S
  | tail _ h ih => exact (h.preserves ih).sound

theorem chain_mergeBlocks (fuel : Nat) (bs : List Block) : Chain bs (mergeBlocks fuel bs).2 := by
  induction fuel generalizing bs with
  | zero => exact .refl
  | succ fuel ih =>
    rw [mergeBlocks]
    cases h : mergeOnce? bs with
    | none => exact .refl
    | some bs' => exact .head (.merge h) (ih bs')

theorem chain_removeDead (fuel : Nat) (bs : List Block) : Chain bs (removeDead fuel bs).2 := by
  induction fuel generalizing bs with
  | zero => exact .refl
  | succ fuel ih =>
    rw [removeDead]
    by_cases h : size (dropUnused bs) = size bs
    · simp only [if_pos h]
      exact .refl
    · simp only [if_neg h]
      exact .head (.dropUnused bs) (ih _)

theorem chain_round (bs : List Block) : Chain bs (round bs).2 :=
  .head (.foldConstants bs) (.head (.foldBranches _) (.head (.removeUnreachable _)
    ((chain_mergeBlocks _ _).trans (chain_removeDead _ _))))

theorem chain_rounds (fuel : Nat) (total : Stats) (bs : List Block) :
    Chain bs (rounds fuel total bs).2 := by
  induction fuel generalizing total bs with
  | zero => exact .refl
  | succ fuel ih =>
    rw [rounds]
    by_cases ht : (round bs).1.total = 0
    · simp only [if_pos ht]
      exact chain_round bs
    · simp only [if_neg ht]
      exact (chain_round bs).trans (ih _ _)

end Optimize

open Optimize

theorem Function.chain_optimize (f : Function) :
    ∃ bs, f.optimize.2 = { f with blocks := bs } ∧ Chain f.blocks bs := by
  unfold Function.optimize
  split
  · exact ⟨f.blocks, rfl, .refl⟩
  · exact ⟨_, rfl, chain_rounds _ _ _⟩

namespace Machine

def withBlocks (m : Machine) (id : Nat) (bs : List Block) : Machine :=
  { m with module := m.module.modify id fun f => { f with blocks := bs } }

theorem withBlocks_withBlocks (m : Machine) (id : Nat) (bs bs' : List Block) :
    (m.withBlocks id bs).withBlocks id bs' = m.withBlocks id bs' := by
  simp only [withBlocks, Module.modify, mk.injEq, Module.mk.injEq, true_and, and_true]
  refine Array.ext_getElem? fun k => ?_
  simp only [Array.getElem?_modify]
  by_cases hk : id = k
  · simp [hk, Function.comp_def]
  · simp [hk]

def SoundCode (m : Machine) : Prop :=
  ∀ id f, m.module.function? id = some f → f.native = false → Sound f.registers f.blocks

variable {m : Machine} {id : Nat} {f : Function} {bs : List Block}

theorem function?_withBlocks (m : Machine) (id : Nat) (bs : List Block) (k : Nat) :
    (m.withBlocks id bs).module.function? k =
      if id = k then (m.module.function? k).map fun f => { f with blocks := bs }
      else m.module.function? k := by
  simp only [withBlocks, Module.function?, Module.modify, Array.getElem?_modify]

theorem SoundCode.withBlocks (h : m.SoundCode) (hf : m.module.function? id = some f)
    (S : Sound f.registers bs) : (m.withBlocks id bs).SoundCode := by
  intro k g hg hn
  rw [function?_withBlocks] at hg
  split at hg
  · rename_i hk
    subst hk
    rw [hf] at hg
    cases hg
    exact S
  · exact h k g hg hn

theorem runsAlike_withBlocks (h : m.SoundCode) (hi : m.context.Idle)
    (hf : m.module.function? id = some f) (hp : Preserves f.registers f.blocks bs) :
    (m.withBlocks id bs).RunsAlike m := by
  have hcases : ∀ g g', (m.withBlocks id bs).Counterpart m g g' →
      g' = f ∧ g = { f with blocks := bs } ∨ g = g' ∧ ∃ k, m.module.function? k = some g := by
    rintro g g' ⟨k, hg, hg'⟩
    rw [function?_withBlocks] at hg
    split at hg
    · rename_i hk
      subst hk
      rw [hf] at hg hg'
      exact .inl ⟨(Option.some.inj hg').symm, (Option.some.inj hg).symm⟩
    · exact .inr ⟨Option.some.inj (hg.symm.trans hg'), k, hg⟩
  have P : Paired (m.withBlocks id bs) m :=
    { natives := rfl
      maxDepth := rfl
      idle := hi
      idle' := hi
      functions := fun k => by
        rw [function?_withBlocks]
        split
        · exact Option.map_eq_none_iff
        · rfl
      signature := fun g g' hg => by
        rcases hcases g g' hg with ⟨rfl, rfl⟩ | ⟨rfl, -⟩ <;> exact ⟨rfl, rfl⟩ }
  refine P.runsAlike fun g g' hg hn => ?_
  rcases hcases g g' hg with ⟨rfl, rfl⟩ | ⟨rfl, k, hk⟩
  · exact hp.behaves g' rfl
  · exact (Preserves.refl (h k g hk hn)).behaves g rfl

theorem runsAlike_chain (h : m.SoundCode) (hi : m.context.Idle)
    (hf : m.module.function? id = some f) (S : Sound f.registers f.blocks)
    (hc : Chain f.blocks bs) : (m.withBlocks id bs).RunsAlike m := by
  induction hc with
  | refl => exact runsAlike_withBlocks h hi hf (.refl S)
  | @tail bs bs' hc hp ih =>
    have hf' : (m.withBlocks id bs).module.function? id = some { f with blocks := bs } := by
      rw [function?_withBlocks, if_pos rfl, hf]
      rfl
    have S' := Chain.sound hc S
    have := runsAlike_withBlocks (h.withBlocks hf S') hi hf' (hp.preserves S')
    rw [withBlocks_withBlocks] at this
    exact this.trans ih

end Machine

def Module.optimizeWhere (m : Module) (chosen : Nat → Bool) : Module :=
  { m with store := m.store.map fun f => if chosen f.id then f.optimize.2 else f }

theorem Module.function?_optimizeWhere (m : Module) (chosen : Nat → Bool) (k : Nat) :
    (m.optimizeWhere chosen).function? k =
      (m.function? k).map fun f => if chosen f.id then f.optimize.2 else f := by
  simp [Module.function?, Module.optimizeWhere]

namespace Machine

def optimizeWhere (m : Machine) (chosen : Nat → Bool) : Machine :=
  { m with module := m.module.optimizeWhere chosen }

theorem ext_function? {m m' : Machine} (hn : m.module.name = m'.module.name)
    (hg : m.module.globals = m'.module.globals) (hl : m.module.loose = m'.module.loose)
    (hf : ∀ k, m.module.function? k = m'.module.function? k)
    (hm : m' = { m with module := m'.module }) :
    m = m' := by
  rw [hm]
  obtain ⟨⟨name, globals, store, loose⟩, natives, depth, context⟩ := m
  obtain ⟨⟨name', globals', store', loose'⟩, natives', depth', context'⟩ := m'
  simp only at hn hg hl
  subst hn hg hl
  obtain rfl : store = store' := Array.ext_getElem? hf
  rfl

theorem optimize_of_native {f : Function} (h : f.native = true) : f.optimize.2 = f := by
  simp [Function.optimize, h]

def below (n : Nat) (chosen : Nat → Bool) (k : Nat) : Bool := decide (k < n) && chosen k

theorem optimizeWhere_succ {m : Machine} (hid : ∀ k f, m.module.function? k = some f → f.id = k)
    (chosen : Nat → Bool) (n : Nat) :
    m.optimizeWhere (below (n + 1) chosen) = m.optimizeWhere (below n chosen) ∨
    ∃ f bs, m.module.function? n = some f ∧ f.native = false ∧ f.optimize.2 =
    { f with blocks := bs } ∧ m.optimizeWhere (below (n + 1) chosen) =
      (m.optimizeWhere (below n chosen)).withBlocks n bs := by
  have hother : ∀ k, k ≠ n → (m.optimizeWhere (below (n + 1) chosen)).module.function? k =
      (m.optimizeWhere (below n chosen)).module.function? k := by
    intro k hk
    simp only [optimizeWhere, Module.function?_optimizeWhere]
    cases hf : m.module.function? k with
    | none => rfl
    | some f =>
      have hlt : decide (k < n + 1) = decide (k < n) := decide_eq_decide.mpr (by omega)
      simp only [below, Option.map_some, hid k f hf, hlt]
  by_cases hsame : (m.optimizeWhere (below (n + 1) chosen)).module.function? n =
      m.module.function? n
  · refine .inl (ext_function? rfl rfl rfl (fun k => ?_) rfl)
    by_cases hk : k = n
    · subst hk
      rw [hsame]
      simp only [optimizeWhere, Module.function?_optimizeWhere]
      cases hf : m.module.function? k with
      | none => rfl
      | some f => simp [below, hid k f hf]
    · exact hother k hk
  · refine .inr ?_
    simp only [optimizeWhere, Module.function?_optimizeWhere] at hsame
    cases hf : m.module.function? n with
    | none => simp [hf] at hsame
    | some f =>
      have hidn := hid n f hf
      have hn : f.native = false := by
        by_contra hn
        simp [hf, optimize_of_native (by simpa using hn)] at hsame
      have hchosen : chosen n = true := by
        by_contra hc
        simp [hf, below, hidn, hc] at hsame
      obtain ⟨bs, ho⟩ : ∃ bs, f.optimize.2 = { f with blocks := bs } := by
        unfold Function.optimize
        split
        · exact ⟨f.blocks, rfl⟩
        · exact ⟨_, rfl⟩
      refine ⟨f, bs, rfl, hn, ho, ext_function? rfl rfl rfl (fun k => ?_) rfl⟩
      rw [function?_withBlocks]
      by_cases hk : k = n
      · subst hk
        simp [optimizeWhere, Module.function?_optimizeWhere, hf, below, hidn, hchosen, ho]
      · rw [hother k hk, if_neg fun h => hk h.symm]

theorem runsAlike_optimizeBelow {m : Machine} (h : m.SoundCode) (hi : m.context.Idle)
    (hid : ∀ k f, m.module.function? k = some f → f.id = k) (chosen : Nat → Bool) (n : Nat) :
    (m.optimizeWhere (below n chosen)).SoundCode ∧
      (m.optimizeWhere (below n chosen)).RunsAlike m := by
  induction n with
  | zero =>
    have : m.optimizeWhere (below 0 chosen) = m := by
      refine ext_function? rfl rfl rfl (fun k => ?_) rfl
      simp [optimizeWhere, Module.function?_optimizeWhere, below]
    rw [this]
    exact ⟨h, .refl m⟩
  | succ n ih =>
    obtain ⟨hs, hr⟩ := ih
    rcases optimizeWhere_succ hid chosen n with he | ⟨f, bs, hf, hn, ho, he⟩
    · rw [he]
      exact ⟨hs, hr⟩
    · have hfn : (m.optimizeWhere (below n chosen)).module.function? n = some f := by
        simp [optimizeWhere, Module.function?_optimizeWhere, hf, below, hid n f hf]
      have S := h n f hf hn
      obtain ⟨bs', ho', hc⟩ := f.chain_optimize
      obtain rfl : bs = bs' := congrArg Function.blocks (ho.symm.trans ho')
      rw [he]
      exact ⟨hs.withBlocks hfn (hc.sound S), (runsAlike_chain hs hi hfn S hc).trans hr⟩

theorem runsAlike_optimizeWhere {m : Machine} (h : m.SoundCode) (hi : m.context.Idle)
    (hid : ∀ k f, m.module.function? k = some f → f.id = k) (chosen : Nat → Bool) :
    (m.optimizeWhere chosen).RunsAlike m := by
  have : m.optimizeWhere (below m.module.store.size chosen) = m.optimizeWhere chosen := by
    refine ext_function? rfl rfl rfl (fun k => ?_) rfl
    simp only [optimizeWhere, Module.function?_optimizeWhere]
    cases hf : m.module.function? k with
    | none => rfl
    | some f =>
      have hk : k < m.module.store.size := (Array.getElem?_eq_some_iff.mp hf).1
      simp [below, hid k f hf, hk]
  rw [← this]
  exact (runsAlike_optimizeBelow h hi hid chosen _).2

end Machine

def sumFunction : Function :=
  let start : BlockRef := ⟨0, 0, "start"⟩
  let stop : BlockRef := ⟨0, 1, "stop"⟩
  let sum : ResultRef := ⟨0, 0, some 0, .real⟩
  { ref := ⟨0, "sum", [], .real⟩
    paramNames := []
    registers := 1
    emitted := 3
    labels := ["stop", "start"]
    blocks := [⟨start, [(Draft.arithmetic .add (.real 1) (.real 2)).instr sum start,
        (Draft.br (some stop)).instr ⟨0, 1, none, .void⟩ start]⟩,
      ⟨stop, [(Draft.ret (some (.result sum))).instr ⟨0, 2, none, .void⟩ stop]⟩] }

def sumBuilder : Builder := ⟨{ name := "sums", store := #[sumFunction] }, some ⟨0, 1, "stop"⟩⟩

theorem built_sumBuilder : sumBuilder.Built := by
  have h₀ : Builder.Built { module := { name := "sums" } } := .empty _
  have hd : Module.declare { name := "sums" } "sum" [] .real = .ok _ := rfl
  have h₁ := ((h₀.declare hd).addBlock 0 "start" fun _ h => by cases h; rfl).addBlock 0 "stop"
    fun _ h => by cases h; rfl
  have h₂ := h₁.moveTo (some ⟨0, 0, "start"⟩) fun _ h => by cases h; exact ⟨_, _, rfl, rfl⟩
  have h₃ := h₂.emit (d := .arithmetic .add (.real 1) (.real 2)) (.arithmetic .add _ _)
    ⟨by simp [Draft.arithmetic], by simp [Draft.arithmetic]⟩ rfl
  have h₄ := h₃.emit (.br (some ⟨0, 1, "stop"⟩)) ⟨by simp [Draft.br], by simp [Draft.br]⟩ rfl
  have h₅ := h₄.moveTo (some ⟨0, 1, "stop"⟩) fun _ h => by cases h; exact ⟨_, _, rfl, rfl⟩
  exact h₅.emit (.ret (some (.result ⟨0, 0, some 0, .real⟩)))
    ⟨by simp [Draft.ret], by simp [Draft.ret]⟩ rfl

theorem definesBeforeUse_sumFunction : DefinesBeforeUse sumFunction.blocks := by
  have hpaths : ∀ ds b, Path sumFunction.blocks ds b → ds = [] ∧ sumFunction.blocks[0]? = some b ∨
      ds = [⟨0, 0, some 0, .real⟩, ⟨0, 1, none, .void⟩] ∧ sumFunction.blocks[1]? = some b := by
    intro ds b hp
    induction hp with
    | entry h => exact .inl ⟨rfl, h⟩
    | step _ hs hc ih =>
      rcases ih with ⟨rfl, hb⟩ | ⟨rfl, hb⟩ <;> cases hb
      · simp only [sumFunction, List.mem_cons, List.not_mem_nil, or_false] at hc
        rcases hc with rfl | rfl
        · simp [Block.successors, Block.terminator?, Draft.instr, Draft.br, Instr.isTerminator,
            Opcode.isTerminator, Option.filter] at hs
        · exact .inr ⟨rfl, rfl⟩
      · simp [Block.successors, Block.terminator?, Draft.instr, Draft.ret, Instr.isTerminator,
          Opcode.isTerminator, Option.filter] at hs
  intro ds b hp pre i post he r hr _
  have hi : i ∈ b.instrs := by simp [he]
  rcases hpaths ds b hp with ⟨rfl, hb⟩ | ⟨rfl, hb⟩ <;> cases hb
  · simp only [List.mem_cons, List.not_mem_nil, or_false] at hi
    rcases hi with rfl | rfl <;>
      simp [Instr.uses, Draft.instr, Draft.arithmetic, Draft.br, Operand.result?] at hr
  · obtain rfl := List.mem_singleton.mp hi
    obtain rfl : r = ⟨0, 0, some 0, .real⟩ := by
      simpa [Instr.uses, Draft.instr, Draft.ret, Operand.result?] using hr
    simp

end RealScript
