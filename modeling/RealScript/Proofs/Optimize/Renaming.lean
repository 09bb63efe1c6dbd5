import RealScript.Proofs.Code.Renaming
import RealScript.Proofs.Optimize.Results

/-! # Optimising renamed code

The passes look at results, constants and targets, and at no name of a function. So optimising
renamed code gives the optimised code, renamed.
-/

namespace RealScript

variable (ρ : String → String)

theorem Instr.fold?_rename (i : Instr) : (i.rename ρ).fold? = i.fold? := by
  have hargs : (i.args.map (·.rename ρ)).mapM Operand.number? = i.args.mapM Operand.number? := by
    rw [List.mapM_map]
    congr 1
    funext x
    exact Operand.number?_rename ρ x
  change (if i.op.isNumeric then ((i.args.map (·.rename ρ)).mapM Operand.number?).bind
    _ else none) = _
  rw [hargs]
  rfl

theorem Instr.uses_rename (i : Instr) : (i.rename ρ).uses = i.uses := by
  change (i.args.map (·.rename ρ)).filterMap Operand.result? = _
  rw [List.filterMap_map]
  exact congrArg (i.args.filterMap ·) (funext (Operand.result?_rename ρ))

theorem Block.successors_rename (b : Block) : (b.rename ρ).successors = b.successors := by
  simp only [successors, terminator?_rename]
  cases b.terminator? <;> rfl

theorem Known.Constant.apply_rename {known : Known} (h : known.Constant) (x : Operand) :
    known.apply (x.rename ρ) = (known.apply x).rename ρ := by
  cases x with
  | result r =>
    rw [Operand.rename_result, apply_result]
    cases hr : known.lookup r with
    | none => rfl
    | some c =>
      obtain ⟨y, hy⟩ := h r c hr
      cases c <;> first | rfl | cases hy
  | _ => rfl

theorem Known.Constant.mapArgs_rename {known : Known} (h : known.Constant) (i : Instr) :
    (i.rename ρ).mapArgs known.apply = (i.mapArgs known.apply).rename ρ := by
  have hargs : (i.args.map (·.rename ρ)).map known.apply =
      (i.args.map known.apply).map (·.rename ρ) := by
    rw [List.map_map, List.map_map]
    exact List.map_congr_left fun x _ => h.apply_rename ρ x
  exact congrArg (fun args => ({ i with
    toOperation := { i.toOperation with args := args, callee := i.callee.map (·.rename ρ) } } :
      Instr))
    hargs

namespace Optimize

theorem foldInstrs_rename {known : Known} (h : known.Constant) (is : List Instr) :
    foldInstrs known (is.map (·.rename ρ)) =
      ((foldInstrs known is).1, (foldInstrs known is).2.map (·.rename ρ)) := by
  induction is generalizing known with
  | nil => rfl
  | cons i is ih =>
    have hi := constant_foldInstrs h [i]
    simp only [foldInstrs] at hi
    simp only [List.map_cons, foldInstrs, h.mapArgs_rename, Instr.fold?_rename]
    split
    · rename_i c hc
      simp only [hc] at hi
      exact ih hi
    · rw [ih h]
      rfl

theorem foldBlocks_rename {known : Known} (h : known.Constant) (bs : List Block) :
    foldBlocks known (bs.map (·.rename ρ)) =
      ((foldBlocks known bs).1, (foldBlocks known bs).2.map (·.rename ρ)) := by
  induction bs generalizing known with
  | nil => rfl
  | cons b bs ih =>
    have hb : foldInstrs known (b.rename ρ).instrs = _ := foldInstrs_rename ρ h b.instrs
    simp only [List.map_cons, foldBlocks, hb, ih (constant_foldInstrs h b.instrs)]
    rfl

theorem foldConstants_rename (bs : List Block) : foldConstants (bs.map (·.rename ρ)) =
      ((foldConstants bs).1, (foldConstants bs).2.map (·.rename ρ)) := by
  have hc : (foldBlocks [] bs).1.Constant := constant_constants bs
  have hempty : Known.Constant [] := fun r c h => nomatch h
  simp only [foldConstants, foldBlocks_rename ρ hempty, Prod.mk.injEq, true_and, List.map_map]
  refine List.map_congr_left fun b _ => ?_
  simp only [Function.comp_apply, Block.mapInstrs, Block.rename, Block.mk.injEq, true_and,
    List.map_map]
  exact List.map_congr_left fun i _ => hc.mapArgs_rename ρ i

theorem foldBranch?_rename (i : Instr) :
    foldBranch? (i.rename ρ) = (foldBranch? i).map (·.rename ρ) := by
  have harg : (i.rename ρ).args[0]? = i.args[0]?.map (·.rename ρ) := by
    change (i.args.map (·.rename ρ))[0]? = _
    rw [List.getElem?_map]
  have hop : (i.rename ρ).op = i.op := rfl
  have htargets : (i.rename ρ).targets = i.targets := rfl
  simp only [foldBranch?, harg, hop, htargets, Option.bind_eq_bind]
  cases hguard : (guard (i.op = .condBr) : Option Unit) with
  | none => rfl
  | some _ =>
    cases i.args[0]? with
    | none => rfl
    | some x =>
      simp only [Option.bind_some, Option.map_some, Operand.number?_rename]
      cases x.number? with
      | none => rfl
      | some c =>
        simp only [Option.bind_some]
        cases i.targets[if c != 0 then 0 else 1]? <;> rfl

theorem foldBlockBranch?_rename (b : Block) :
    foldBlockBranch? (b.rename ρ) = (foldBlockBranch? b).map (·.rename ρ) := by
  simp only [foldBlockBranch?, Block.rename, List.getLast?_map, Option.bind_eq_bind]
  cases b.instrs.getLast? with
  | none => rfl
  | some i =>
    simp only [Option.map_some, Option.bind_some, foldBranch?_rename]
    cases foldBranch? i with
    | none => rfl
    | some t => simp [List.map_dropLast]

section

variable (bs : List Block)

include bs

theorem foldBranches_rename : foldBranches (bs.map (·.rename ρ)) =
      ((foldBranches bs).1, (foldBranches bs).2.map (·.rename ρ)) := by
  simp only [foldBranches, List.countP_map, List.map_map, Prod.mk.injEq]
  refine ⟨List.countP_congr fun b _ => ?_, List.map_congr_left fun b _ => ?_⟩
  · simp [foldBlockBranch?_rename]
  · simp only [Function.comp_apply, foldBlockBranch?_rename]
    cases foldBlockBranch? b <;> rfl

theorem find?_rename (r : BlockRef) :
    find? (bs.map (·.rename ρ)) r = (find? bs r).map (·.rename ρ) := by
  simp only [find?, List.find?_map]
  rfl

theorem successorsIn_rename (r : BlockRef) :
    successorsIn (bs.map (·.rename ρ)) r = successorsIn bs r := by
  simp only [successorsIn, find?_rename]
  cases find? bs r with
  | none => rfl
  | some b => simp [Block.successors_rename]

theorem walk_rename (fuel : Nat) (seen work : List BlockRef) :
    walk (bs.map (·.rename ρ)) fuel seen work = walk bs fuel seen work := by
  induction fuel generalizing seen work with
  | zero => rfl
  | succ fuel ih =>
    cases work with
    | nil => rfl
    | cons r work => simp only [walk, successorsIn_rename, ih]

theorem successors_rename :
    (bs.map (·.rename ρ)).flatMap (·.successors) = bs.flatMap (·.successors) := by
  rw [List.flatMap_map]
  exact List.flatMap_congr fun b _ => b.successors_rename ρ

theorem reachable_rename : reachable (bs.map (·.rename ρ)) = reachable bs := by
  cases bs with
  | nil => rfl
  | cons b bs =>
    have hall := successors_rename ρ (b :: bs)
    have hwalk := walk_rename ρ (b :: bs)
    simp only [List.map_cons] at hall hwalk
    simp only [List.map_cons, reachable, hall, hwalk]
    rfl

theorem removeUnreachable_rename : removeUnreachable (bs.map (·.rename ρ)) =
      ((removeUnreachable bs).1, (removeUnreachable bs).2.map (·.rename ρ)) := by
  simp only [removeUnreachable, reachable_rename, List.filter_map, List.length_map]
  rfl

theorem mergeable?_rename (b : Block) :
    mergeable? (bs.map (·.rename ρ)) (b.rename ρ) = (mergeable? bs b).map (·.rename ρ) := by
  have hentries : ∀ r, entries (bs.map (·.rename ρ)) r = entries bs r := fun r =>
    congrArg (·.count (some r)) (successors_rename ρ bs)
  have hhead : (bs.map (·.rename ρ)).head?.map Block.ref = bs.head?.map Block.ref := by
    cases bs <;> rfl
  simp only [mergeable?, Block.terminator?_rename, hentries, hhead, find?_rename,
    Option.bind_eq_bind]
  cases b.terminator? with
  | none => rfl
  | some t =>
    simp only [Option.map_some, Option.bind_some]
    rw [show (t.rename ρ).op = t.op from rfl, show (t.rename ρ).targets = t.targets from rfl,
      show (b.rename ρ).ref = b.ref from rfl]
    simp only [Option.map_bind, Function.comp_def]

end

theorem absorb_rename (b next : Block) :
    absorb (b.rename ρ) (next.rename ρ) = (absorb b next).rename ρ := by
  simp only [absorb, Block.rename, List.map_append, List.map_dropLast, List.map_map]
  rfl

theorem mergeOnce?_rename (bs : List Block) :
    mergeOnce? (bs.map (·.rename ρ)) = (mergeOnce? bs).map (List.map (·.rename ρ)) := by
  have hpair : (bs.map (·.rename ρ)).findSome? (fun b =>
      (mergeable? (bs.map (·.rename ρ)) b).map fun next => (b, next)) =
      (bs.findSome? fun b => (mergeable? bs b).map fun next => (b, next)).map
        fun x => (x.1.rename ρ, x.2.rename ρ) := by
    rw [List.findSome?_map, List.map_findSome?]
    congr 1
    funext b
    simp only [Function.comp_apply, mergeable?_rename, Option.map_map]
    rfl
  simp only [mergeOnce?, hpair, Option.bind_eq_bind]
  cases bs.findSome? fun b => (mergeable? bs b).map fun next => (b, next) with
  | none => rfl
  | some x =>
    obtain ⟨b, next⟩ := x
    have htake : ((fun c : Block => if c.ref == b.ref then (absorb b next).rename ρ else c) ∘
        fun c => c.rename ρ) = (·.rename ρ) ∘ fun c => if c.ref == b.ref then absorb b
          next else c := by
      funext c
      simp only [Function.comp_apply]
      rw [show (c.rename ρ).ref = c.ref from rfl]
      split <;> rfl
    simp only [Option.map_some, Option.bind_some, Option.pure_def, Option.some.injEq, List.map_map,
      absorb_rename, List.filter_map]
    rw [show (b.rename ρ).ref = b.ref from rfl, htake]
    rfl

theorem mergeBlocks_rename (fuel : Nat) (bs : List Block) : mergeBlocks fuel (bs.map (·.rename ρ)) =
      ((mergeBlocks fuel bs).1, (mergeBlocks fuel bs).2.map (·.rename ρ)) := by
  induction fuel generalizing bs with
  | zero => rfl
  | succ fuel ih =>
    simp only [mergeBlocks, mergeOnce?_rename]
    cases mergeOnce? bs with
    | none => rfl
    | some bs' => simp only [Option.map_some, ih]

theorem size_rename (bs : List Block) : size (bs.map (·.rename ρ)) = size bs := by
  simp [size, Block.rename, List.length_flatMap, Function.comp_def]

theorem used_rename (bs : List Block) : used (bs.map (·.rename ρ)) = used bs := by
  simp only [used, List.flatMap_map]
  refine List.flatMap_congr fun b _ => ?_
  simp only [Block.rename, List.flatMap_map, Instr.uses_rename]

theorem dropUnused_rename (bs : List Block) :
    dropUnused (bs.map (·.rename ρ)) = (dropUnused bs).map (·.rename ρ) := by
  simp only [dropUnused, used_rename, List.map_map]
  refine List.map_congr_left fun b _ => ?_
  simp only [Function.comp_apply, Block.rename, List.filter_map]
  rfl

theorem removeDead_rename (fuel : Nat) (bs : List Block) : removeDead fuel (bs.map (·.rename ρ)) =
      ((removeDead fuel bs).1, (removeDead fuel bs).2.map (·.rename ρ)) := by
  induction fuel generalizing bs with
  | zero => rfl
  | succ fuel ih =>
    simp only [removeDead, dropUnused_rename, size_rename, ih]
    split <;> rfl

theorem round_rename (bs : List Block) :
    round (bs.map (·.rename ρ)) = ((round bs).1, (round bs).2.map (·.rename ρ)) := by
  simp only [round, foldConstants_rename, foldBranches_rename, removeUnreachable_rename,
    List.length_map, mergeBlocks_rename, size_rename, removeDead_rename]

theorem rounds_rename (fuel : Nat) (total : Stats) (bs : List Block) :
    rounds fuel total (bs.map (·.rename ρ)) =
      ((rounds fuel total bs).1, (rounds fuel total bs).2.map (·.rename ρ)) := by
  induction fuel generalizing total bs with
  | zero => rfl
  | succ fuel ih =>
    simp only [rounds, round_rename, ih]
    split <;> rfl

theorem measure_rename (bs : List Block) : measure (bs.map (·.rename ρ)) = measure bs := by
  have hcond : condBranches (bs.map (·.rename ρ)) = condBranches bs := by
    simp only [condBranches, List.countP_flatMap, List.map_map]
    refine congrArg List.sum (List.map_congr_left fun b _ => ?_)
    simp only [Function.comp_apply, Block.rename, List.countP_map]
    rfl
  simp only [measure, size_rename, List.length_map, hcond]

end Optimize

theorem Function.optimize_rename (f : Function) :
    (f.rename ρ).optimize.2 = f.optimize.2.rename ρ := by
  have hblocks : (f.rename ρ).blocks = f.blocks.map (·.rename ρ) := rfl
  have hbody : (f.rename ρ).hasBody = f.hasBody := by simp [hasBody, rename]
  unfold optimize
  rw [hbody, hblocks, Optimize.measure_rename, Optimize.rounds_rename,
    show (f.rename ρ).native = f.native from rfl]
  split <;> rfl

end RealScript
