import RealScript.Proofs.Code.Typed
import RealScript.Proofs.Optimize.Preservation
import RealScript.Proofs.Optimize.Shrinking

/-! # Optimising ends in a normal form

The loops of the optimiser run until nothing changes. On code whose blocks end as they should they
come to an end: a round that changes something makes the code smaller. What is left when a round
changes nothing is in normal form, and optimising it again changes nothing.
-/

namespace RealScript

variable {fuel : Nat} {b : Block}

namespace Optimize

variable {bs bs' : List Block}

inductive Walks (bs : List Block) : (seen work out : List BlockRef) → Prop where
  | stop {seen : List BlockRef} : Walks bs seen [] seen
  | again {seen work new out : List BlockRef} {r : BlockRef} :
      new = (successorsIn bs r).eraseDups.filter (!seen.contains ·) →
      Walks bs (seen ++ new) (work ++ new) out → Walks bs seen (r :: work) out

inductive Merges : List Block → Nat → List Block → Prop where
  | stop {bs : List Block} : mergeOnce? bs = none → Merges bs 0 bs
  | again {bs bs' out : List Block} {n : Nat} : mergeOnce? bs = some bs' → Merges bs' n out →
      Merges bs (n + 1) out

/-- Dropping unused results until all are used, and the number of instructions dropped. -/
inductive Clears : List Block → Nat → List Block → Prop where
  | stop {bs : List Block} : size (dropUnused bs) = size bs → Clears bs 0 bs
  | again {bs out : List Block} {n : Nat} : size (dropUnused bs) ≠ size bs →
      Clears (dropUnused bs) n out → Clears bs (size bs - size (dropUnused bs) + n) out

inductive Round (bs : List Block) : Stats → List Block → Prop where
  | mk {b : Block} {cs kept joined out : List Block} {reached : List BlockRef} {merged dead : Nat} :
      cs = (foldBranches (foldConstants bs).2).2 → cs.head? = some b →
      Walks cs [b.ref] [b.ref] reached → kept = cs.filter (reached.contains ·.ref) →
      Merges kept merged joined → Clears joined dead out →
      Round bs ⟨(foldConstants bs).1, (foldBranches (foldConstants bs).2).1,
        cs.length - kept.length,
        merged, dead⟩ out

/-- Rounds until one of them changes nothing, with the changes counted from a total on. -/
inductive Rounds : Stats → List Block → Stats → List Block → Prop where
  | stop {total s : Stats} {bs out : List Block} : Round bs s out → s.total = 0 →
      Rounds total bs total out
  | again {total s t : Stats} {bs bs' out : List Block} : Round bs s bs' → s.total ≠ 0 →
      Rounds (total.add s) bs' t out → Rounds total bs t out

theorem Walk.walks {e : BlockRef} {seen work : List BlockRef} (h : Walk bs e seen work)
    (hf : (allTargets bs).length + 1 + work.length ≤ fuel + seen.length) :
    Walks bs seen work (walk bs fuel seen work) := by
  induction fuel generalizing seen work with
  | zero =>
    have hle : seen.length ≤ (allTargets bs).length + 1 :=
      (List.subperm_of_subset h.nodup h.subset).length_le
    obtain rfl : work = [] := List.eq_nil_of_length_eq_zero (by omega)
    exact .stop
  | succ fuel ih =>
    cases work with
    | nil => exact .stop
    | cons r work =>
      rw [walk]
      refine .again rfl (ih (h.step rfl) ?_)
      simp only [List.length_append, List.length_cons] at hf ⊢
      omega

theorem walks_reachable (hb : bs.head? = some b) : Walks bs [b.ref] [b.ref] (reachable bs) := by
  cases bs with
  | nil => cases hb
  | cons c bs =>
    obtain rfl : c = b := by simpa using hb
    refine Walk.walks (e := c.ref) ⟨by simp, by simp, by simp, by simp⟩ ?_
    have := length_allTargets_le (c :: bs)
    simp only [List.length_cons, List.length_nil]
    omega

theorem merges_mergeBlocks (W : Wired bs) (hf : bs.length ≤ fuel) :
    Merges bs (mergeBlocks fuel bs).1 (mergeBlocks fuel bs).2 := by
  induction fuel generalizing bs with
  | zero => exact absurd (List.eq_nil_of_length_eq_zero (by omega)) W.nonempty
  | succ fuel ih =>
    rw [mergeBlocks]
    cases h : mergeOnce? bs with
    | none => exact .stop h
    | some bs' =>
      obtain ⟨b, next, M, rfl⟩ := mergeOnce?_eq_some W h
      have hlen := (M.reduces W).length
      exact .again h (ih (M.wired W) (by omega))

theorem clears_removeDead (hf : size bs ≤ fuel) :
    Clears bs (removeDead fuel bs).1 (removeDead fuel bs).2 := by
  induction fuel generalizing bs with
  | zero =>
    have := size_le_of_trims (trims_dropUnused bs)
    exact .stop (by omega)
  | succ fuel ih =>
    rw [removeDead]
    by_cases h : size (dropUnused bs) = size bs
    · simp only [if_pos h]
      exact .stop h
    · simp only [if_neg h]
      have := size_le_of_trims (trims_dropUnused bs)
      exact .again h (ih (by omega))

theorem Merges.mergeOnce?_eq_none {n : Nat} (h : Merges bs n bs') (hn : n = 0) :
    mergeOnce? bs = none := by
  cases h with
  | stop h => exact h
  | again => cases hn

theorem Clears.size_dropUnused {n : Nat} (h : Clears bs n bs') (hn : n = 0) :
    size (dropUnused bs) = size bs := by
  have := size_le_of_trims (trims_dropUnused bs)
  cases h with
  | stop h => exact h
  | again hne => omega

theorem round_ends (W : Wired bs) : Round bs (round bs).1 (round bs).2 := by
  have h₁ := reduces_foldConstants W
  have h₂ := h₁.trans (reduces_foldBranches h₁.wired)
  have h₃ := h₂.trans (reduces_removeUnreachable h₂.wired)
  obtain ⟨b, hb⟩ := Option.ne_none_iff_exists'.mp (mt List.head?_eq_none_iff.mp h₂.wired.nonempty)
  exact .mk rfl hb (walks_reachable hb) rfl (merges_mergeBlocks h₃.wired (Nat.le_refl _))
    (clears_removeDead (Nat.le_refl _))

structure Normal (bs : List Block) : Prop where
  /-- No instruction computes with constants alone. -/
  folded : ∀ i ∈ code bs, i.op.isNumeric = true → ∃ x ∈ i.args, x.number? = none
  /-- No branch depends on a constant. -/
  branches : ∀ i ∈ code bs, i.op = .condBr → ∀ x, i.args[0]? = some x → x.number? = none
  reached : ∀ b ∈ bs, ∃ ds, Path bs ds b
  /-- Where a block jumps to another one, other than the first, something else leads as well. -/
  merged : ∀ b ∈ bs, ∀ t ∈ b.terminator?, t.op = .br → ∀ c ∈ bs, t.targets = [some c.ref] →
    c.ref ≠ b.ref → bs.head? ≠ some c → entries bs c.ref ≠ 1
  used : ∀ i ∈ code bs, i.op.isPure = true → i.ref ∈ used bs

theorem exists_of_fold?_eq_none {i : Instr} (hn : i.op.isNumeric = true) (h : i.fold? = none) :
    ∃ x ∈ i.args, x.number? = none := by
  by_contra hall
  push Not at hall
  have hsome : ∀ xs : List Operand, (∀ x ∈ xs, x.number? ≠ none) →
    ∃ ys, xs.mapM Operand.number? = some ys := by
    intro xs
    induction xs with
    | nil => exact fun _ => ⟨[], rfl⟩
    | cons x xs ih =>
      intro hx
      obtain ⟨y, hy⟩ := Option.ne_none_iff_exists'.mp (hx x List.mem_cons_self)
      obtain ⟨ys, hys⟩ := ih fun z hz => hx z (List.mem_cons_of_mem _ hz)
      exact ⟨y :: ys, by simp [List.mapM_cons, hy, hys]⟩
  obtain ⟨ys, hys⟩ := hsome i.args hall
  rw [Instr.fold?, if_pos hn, hys] at h
  simp only [Option.bind_eq_bind, Option.bind_some] at h
  split at h <;> cases h

theorem path_of_walk (fuel : Nat) {seen work : List BlockRef}
    (hseen : ∀ b ∈ bs, b.ref ∈ seen → ∃ ds, Path bs ds b)
    (hwork : ∀ b ∈ bs, b.ref ∈ work → ∃ ds, Path bs ds b) :
    ∀ b ∈ bs, b.ref ∈ walk bs fuel seen work → ∃ ds, Path bs ds b := by
  induction fuel generalizing seen work with
  | zero => exact hseen
  | succ fuel ih =>
    cases work with
    | nil => exact hseen
    | cons r work =>
      have hnew : ∀ b ∈ bs, b.ref ∈ (successorsIn bs r).eraseDups.filter (!seen.contains ·) →
          ∃ ds, Path bs ds b := by
        intro b hb hmem
        replace hmem := List.mem_eraseDups.mp (List.mem_filter.mp hmem).1
        unfold successorsIn at hmem
        split at hmem
        · rename_i c hfind
          have hc : c ∈ bs := List.mem_of_find?_eq_some hfind
          obtain rfl : c.ref = r := by simpa using List.find?_some hfind
          obtain ⟨ds, hp⟩ := hwork c hc List.mem_cons_self
          exact ⟨_, .step hp (by simpa using hmem) hb⟩
        · cases hmem
      rw [walk]
      refine ih (fun b hb hmem => ?_) fun b hb hmem => ?_
      · exact (List.mem_append.mp hmem).elim (hseen b hb) (hnew b hb)
      · exact (List.mem_append.mp hmem).elim (fun h => hwork b hb (List.mem_cons_of_mem _ h))
          (hnew b hb)

theorem path_of_reachable (W : Wired bs) (hb : b ∈ bs) (h : b.ref ∈ reachable bs) :
    ∃ ds, Path bs ds b := by
  obtain ⟨e, bs, rfl⟩ := List.exists_cons_of_ne_nil W.nonempty
  have hentry : ∀ c ∈ e :: bs, c.ref ∈ [e.ref] → ∃ ds, Path (e :: bs) ds c := by
    intro c hc he
    obtain rfl := List.inj_on_of_nodup_map W.labels hc List.mem_cons_self (List.mem_singleton.mp he)
    exact ⟨[], .entry rfl⟩
  exact path_of_walk _ hentry hentry b hb h

theorem number?_of_foldBlockBranch? (W : Wired bs) (hb : b ∈ bs)
    (h : foldBlockBranch? b = none) {i : Instr} (hi : i ∈ b.instrs)
    (ho : i.op = .condBr) {x : Operand}
    (hx : i.args[0]? = some x) : x.number? = none := by
  obtain ⟨pre, post, he⟩ := List.append_of_mem hi
  have hterm : i.isTerminator = true := by simp [Instr.isTerminator, ho, Opcode.isTerminator]
  obtain rfl := ((W.closed b hb).isTerminator_iff he).mp hterm
  obtain ⟨yes, no, ht⟩ := (W.aims i (mem_code.mpr ⟨b, hb, hi⟩)).condBr ho
  by_contra hne
  obtain ⟨c, hc⟩ := Option.ne_none_iff_exists'.mp hne
  have hlast : b.instrs.getLast? = some i := by rw [he, List.getLast?_concat]
  have htarget : ∃ t, i.targets[if c != 0 then 0 else 1]? = some t := by
    rw [ht]
    split
    · exact ⟨yes, rfl⟩
    · exact ⟨no, rfl⟩
  obtain ⟨t, ht⟩ := htarget
  simp [foldBlockBranch?, foldBranch?, hlast, ho, hx, hc, ht, guard] at h

theorem mergeable?_eq_none (h : mergeOnce? bs = none) (hb : b ∈ bs) : mergeable? bs b = none := by
  simp only [mergeOnce?, Option.bind_eq_bind, Option.bind_eq_none_iff] at h
  by_contra hne
  obtain ⟨next, hm⟩ := Option.ne_none_iff_exists'.mp hne
  have hfind : bs.findSome? (fun b => (mergeable? bs b).map fun next => (b, next)) ≠ none := by
    intro hn
    have := List.findSome?_eq_none_iff.mp hn b hb
    rw [hm] at this
    cases this
  obtain ⟨p, hp⟩ := Option.ne_none_iff_exists'.mp hfind
  cases h p hp

theorem entries_of_mergeable? (W : Wired bs) {c : Block} (h : mergeable? bs b = none) {t : Instr}
    (ht : b.terminator? = some t) (ho : t.op = .br) (hc : c ∈ bs)
    (htargets : t.targets = [some c.ref])
    (hne : c.ref ≠ b.ref) (hhead : bs.head? ≠ some c) : entries bs c.ref ≠ 1 := by
  intro hone
  have hfirst : bs.head?.map Block.ref ≠ some c.ref := by
    intro he
    obtain ⟨e, hhe, href⟩ := Option.map_eq_some_iff.mp he
    exact hhead (List.inj_on_of_nodup_map W.labels (List.mem_of_mem_head? hhe) hc href ▸ hhe)
  simp only [mergeable?, ht, ho, htargets, guard, if_true, Option.bind_eq_bind, Option.bind_some,
    Option.pure_def, List.getElem?_cons_zero, bne_iff_ne.mpr hne, bne_iff_ne.mpr hfirst, hone,
    Bool.and_self, decide_true, find?_eq_some W.labels hc] at h
  cases h

theorem normal_of_round (W : Wired bs) (h : (round bs).1.total = 0) : Normal bs := by
  let kept := (removeUnreachable (foldBranches (foldConstants bs).2).2).2
  let joined := (mergeBlocks kept.length kept).2
  have htotal : (foldConstants bs).1 + (foldBranches (foldConstants bs).2).1 +
      (removeUnreachable (foldBranches (foldConstants bs).2).2).1 +
        (mergeBlocks kept.length kept).1 +
      (removeDead (size joined) joined).1 = 0 := h
  obtain ⟨hsame, hfold⟩ := foldConstants_of_eq_zero (show (foldConstants bs).1 = 0 by omega)
  simp only [kept, joined, hsame] at htotal
  obtain ⟨hsame, hbranch⟩ := foldBranches_of_eq_zero (show (foldBranches bs).1 = 0 by omega)
  simp only [hsame] at htotal
  obtain ⟨hsame, hreach⟩ := removeUnreachable_of_eq_zero
    (show (removeUnreachable bs).1 = 0 by omega)
  simp only [hsame] at htotal
  have hmerge : mergeOnce? bs = none :=
    (merges_mergeBlocks W (Nat.le_refl _)).mergeOnce?_eq_none (by omega)
  have hjoin : (mergeBlocks bs.length bs).2 = bs :=
    (reduces_mergeBlocks bs.length W).same (by omega)
  rw [hjoin] at htotal
  have hdead : size (dropUnused bs) = size bs :=
    (clears_removeDead (Nat.le_refl _)).size_dropUnused (by omega)
  exact
    { folded := fun i hi hn => exists_of_fold?_eq_none hn (hfold i hi)
      branches := fun i hi ho x hx => by
        obtain ⟨b, hb, hib⟩ := mem_code.mp hi
        exact number?_of_foldBlockBranch? W hb (hbranch b hb) hib ho hx
      reached := fun b hb => path_of_reachable W hb (hreach b hb)
      merged := fun b hb t ht ho c hc htargets hne hhead =>
        entries_of_mergeable? W (mergeable?_eq_none hmerge hb) ht ho hc htargets hne hhead
      used := (dropUnused_of_size_eq hdead).2 }

theorem rounds_ends (W : Wired bs) (hf : measure bs < fuel) (total : Stats) :
    let r := rounds fuel total bs
    Rounds total bs r.1 r.2 ∧ Wired r.2 ∧ (round r.2).1.total = 0 ∧
      r.2.length + (r.1.removed + r.1.merged) = bs.length + (total.removed + total.merged) := by
  induction fuel generalizing bs total with
  | zero => exact absurd hf (Nat.not_lt_zero _)
  | succ fuel ih =>
    have hround := reduces_round W
    rw [rounds]
    by_cases hz : (round bs).1.total = 0
    · have hsame := hround.same hz
      simp only [if_pos hz]
      refine ⟨.stop (round_ends W) hz, hround.wired, ?_, by rw [hsame]⟩
      rw [hsame]
      exact hz
    · simp only [if_neg hz]
      have hm := hround.measure
      obtain ⟨hends, hw, hzero, hlen⟩ := ih hround.wired (by omega) (total.add (round bs).1)
      refine ⟨.again (round_ends W) hz hends, hw, hzero, hlen.trans ?_⟩
      have := hround.length
      simp only [Stats.add]
      omega

end Optimize

open Optimize

namespace Function

variable {f : Function}

/-- A run of the optimiser over a function, with all its loops run to their ends. -/
inductive Optimizes (f : Function) : Stats → Function → Prop where
  | skip : f.native = true ∨ f.hasBody = false → Optimizes f {} f
  | run {s : Stats} {bs : List Block} : f.native = false → f.hasBody = true →
    Rounds {} f.blocks s bs → Optimizes f s { f with blocks := bs }

theorem optimize_eq (hn : f.native = false) (hb : f.hasBody = true) :
    f.optimize = ((rounds (measure f.blocks + 1) {} f.blocks).1,
      { f with blocks := (rounds (measure f.blocks + 1) {} f.blocks).2 }) := by
  simp [optimize, hn, hb]

theorem optimize_of_wired (hn : f.native = false) (W : Wired f.blocks) :
    f.Optimizes f.optimize.1 f.optimize.2 ∧ Wired f.optimize.2.blocks ∧
      (round f.optimize.2.blocks).1.total = 0 ∧
      f.optimize.2.blocks.length + (f.optimize.1.removed + f.optimize.1.merged) =
      f.blocks.length := by
  have hb : f.hasBody = true := by simpa [hasBody] using W.nonempty
  have hrounds := rounds_ends W (Nat.lt_succ_self _) {}
  rw [optimize_eq hn hb]
  generalize rounds (Optimize.measure f.blocks + 1) {} f.blocks = r at hrounds ⊢
  obtain ⟨hends, hw, hzero, hlen⟩ := hrounds
  exact ⟨.run hn hb hends, hw, hzero, hlen⟩

theorem optimize_of_total_eq_zero (W : Wired f.blocks) (h : (round f.blocks).1.total = 0) :
    f.optimize = ({}, f) := by
  cases hn : f.native with
  | true => simp [optimize, hn]
  | false =>
    rw [optimize_eq hn (by simpa [hasBody] using W.nonempty), rounds]
    simp only [if_pos h, (reduces_round W).same h]

theorem wired_of_verify (ht : f.Tidy) (hn : f.native = false) (hv : f.verify = .ok ()) :
    Wired f.blocks where
  nonempty := (verifyBlock_of_verify hn hv).1
  labels := ht.nodup_ref
  closed b hb := (block_of_verify hn hv hb).2.1
  aims i hi := by
    obtain ⟨b, hb, hib⟩ := mem_code.mp hi
    have h := fits_of_verifyOperation (ht.instr i hi) ((block_of_verify hn hv hb).2.2 i hib)
    exact ⟨h.targets, h.inner, h.br, h.condBr⟩

end Function

/-- Optimising a function that was built and verified comes to an end, in normal form. The blocks
that are gone are those that were counted as removed or merged, and optimising once more changes
nothing. -/
theorem Builder.Built.optimize_normalizes {b : Builder} (hb : b.Built) {f : Function}
    (hf : f ∈ b.module.store) (hv : f.verify = .ok ()) :
    f.Optimizes f.optimize.1 f.optimize.2 ∧ Normal f.optimize.2.blocks ∧
      f.optimize.2.blocks.length + (f.optimize.1.removed + f.optimize.1.merged) = f.blocks.length ∧
      f.optimize.2.optimize.1 = {} ∧ f.optimize.2.optimize.2.listing = f.optimize.2.listing := by
  obtain ⟨k, hk⟩ := Array.getElem?_of_mem hf
  cases hnative : f.native with
  | true =>
    have hblocks := (hb.holds.1 k f hk).native hnative
    rw [Machine.optimize_of_native hnative, Machine.optimize_of_native hnative]
    have hs : f.optimize.1 = {} := by simp [Function.optimize, hnative]
    rw [hs, hblocks]
    refine ⟨.skip (.inl hnative), ⟨?_, ?_, ?_, ?_, ?_⟩, rfl, rfl, rfl⟩ <;> simp [code]
  | false =>
    have W := Function.wired_of_verify (hb.tidy.function k f hk) hnative hv
    obtain ⟨hends, hw, hzero, hlen⟩ := Function.optimize_of_wired hnative W
    have hagain := Function.optimize_of_total_eq_zero hw hzero
    exact ⟨hends, normal_of_round hw hzero, hlen, by rw [hagain], by rw [hagain]⟩

/-- A sum of constants that is returned from another block: one block is left, which returns the
sum. -/
theorem optimize_normalizes_sum : (sumBuilder.Built ∧ sumFunction.verify = .ok ()) ∧
      sumFunction.Optimizes sumFunction.optimize.1 sumFunction.optimize.2 ∧
      Normal sumFunction.optimize.2.blocks ∧
      sumFunction.optimize.2.blocks.length +
        (sumFunction.optimize.1.removed + sumFunction.optimize.1.merged) =
        sumFunction.blocks.length ∧
      sumFunction.optimize.2.optimize.1 = {} ∧
      sumFunction.optimize.2.optimize.2.listing = sumFunction.optimize.2.listing := by
  have hv : sumFunction.verify = .ok () := rfl
  exact ⟨⟨built_sumBuilder, hv⟩, built_sumBuilder.optimize_normalizes (by simp [sumBuilder]) hv⟩

end RealScript
