import RealScript.Code.Function

/-! # Optimising code

Five local passes run in turn until none of them changes anything: constants are folded, branches on
constants become jumps, blocks that cannot be reached are dropped, a block is merged into the only
one that jumps to it, and unused results are dropped.
-/

namespace RealScript

structure Stats where
  folded : Nat := 0
  branches : Nat := 0
  removed : Nat := 0
  merged : Nat := 0
  dead : Nat := 0
  deriving DecidableEq, Repr, Inhabited

namespace Stats

def add (s t : Stats) : Stats :=
  ⟨s.folded + t.folded, s.branches + t.branches, s.removed + t.removed, s.merged + t.merged,
    s.dead + t.dead⟩

def total (s : Stats) : Nat := s.folded + s.branches + s.removed + s.merged + s.dead

def toList (s : Stats) : List Nat := [s.folded, s.branches, s.removed, s.merged, s.dead]

end Stats

/-- The constant that an instruction computes if all its operands are constants. -/
def Instr.fold? (i : Instr) : Option Operand :=
  if i.op.isNumeric then do
    let xs ← i.args.mapM Operand.number?
    match i.op.compute i.pred (xs.getD 0 0) (xs.getD 1 0) with
    | .inl x => some (.real x)
    | .inr b => some (.truth b)
  else none

abbrev Known := List (ResultRef × Operand)

def Known.apply (known : Known) : Operand → Operand
  | .result r => (known.lookup r).getD (.result r)
  | x => x

namespace Optimize

/-- Drops the instructions that compute constants and remembers what they compute. -/
def foldInstrs (known : Known) : List Instr → Known × List Instr
  | [] => (known, [])
  | i :: is =>
    let i := i.mapArgs known.apply
    match i.fold? with
    | some c => foldInstrs ((i.ref, c) :: known) is
    | none =>
      let (known, is) := foldInstrs known is
      (known, i :: is)

def foldBlocks (known : Known) : List Block → Known × List Block
  | [] => (known, [])
  | b :: bs =>
    let (known, is) := foldInstrs known b.instrs
    let (known, bs) := foldBlocks known bs
    (known, { b with instrs := is } :: bs)

def foldConstants (bs : List Block) : Nat × List Block :=
  let (known, bs) := foldBlocks [] bs
  (known.length, bs.map (·.mapInstrs (·.mapArgs known.apply)))

def foldBranch? (i : Instr) : Option Instr := do
  guard (i.op = .condBr)
  let c ← (← i.args[0]?).number?
  let target ← i.targets[if c != 0 then 0 else 1]?
  return { i with op := .br, args := [], targets := [target] }

def foldBlockBranch? (b : Block) : Option Block := do
  let t ← foldBranch? (← b.instrs.getLast?)
  return { b with instrs := b.instrs.dropLast ++ [t] }

def foldBranches (bs : List Block) : Nat × List Block :=
  (bs.countP (foldBlockBranch? · |>.isSome), bs.map fun b => (foldBlockBranch? b).getD b)

def find? (bs : List Block) (r : BlockRef) : Option Block := bs.find? (·.ref == r)

def successorsIn (bs : List Block) (r : BlockRef) : List BlockRef :=
  match find? bs r with
  | some b => b.successors.filterMap id
  | none => []

/-- Walks along successors. `seen` holds every block that was ever put on the list of work. -/
def walk (bs : List Block) : (fuel : Nat) → (seen work : List BlockRef) → List BlockRef
  | 0, seen, _ => seen
  | _, seen, [] => seen
  | fuel + 1, seen, r :: work =>
    let new := (successorsIn bs r).eraseDups.filter (!seen.contains ·)
    walk bs fuel (seen ++ new) (work ++ new)

def reachable (bs : List Block) : List BlockRef :=
  match bs with
  | [] => []
  | b :: _ =>
    walk bs ((bs.flatMap (·.successors)).length + 1) [b.ref] [b.ref]

def removeUnreachable (bs : List Block) : Nat × List Block :=
  let reached := reachable bs
  let kept := bs.filter (reached.contains ·.ref)
  (bs.length - kept.length, kept)

def entries (bs : List Block) (r : BlockRef) : Nat :=
  (bs.flatMap (·.successors)).count (some r)

/-- The block that `b` can take over: it jumps there, and nothing else does. -/
def mergeable? (bs : List Block) (b : Block) : Option Block := do
  let t ← b.terminator?
  guard (t.op = .br)
  let r ← (← t.targets[0]?)
  guard (r != b.ref && (bs.head?.map Block.ref) != some r && entries bs r = 1)
  find? bs r

def absorb (b next : Block) : Block :=
  { b with instrs := b.instrs.dropLast ++ next.instrs.map fun i => { i with block := b.ref } }

def mergeOnce? (bs : List Block) : Option (List Block) := do
  let (b, next) ← bs.findSome? fun b => (mergeable? bs b).map fun next => (b, next)
  return (bs.map fun c => if c.ref == b.ref then absorb b next else c).filter (·.ref != next.ref)

/-- Merges blocks until no two can be merged; each merge makes one block fewer. -/
def mergeBlocks : (fuel : Nat) → List Block → Nat × List Block
  | 0, bs => (0, bs)
  | fuel + 1, bs =>
    match mergeOnce? bs with
    | none => (0, bs)
    | some bs =>
      let (n, bs) := mergeBlocks fuel bs
      (n + 1, bs)

def used (bs : List Block) : List ResultRef := bs.flatMap fun b => b.instrs.flatMap Instr.uses

def size (bs : List Block) : Nat := (bs.flatMap (·.instrs)).length

def dropUnused (bs : List Block) : List Block :=
  let inUse := used bs
  bs.map fun b => { b with instrs := b.instrs.filter fun i => !i.op.isPure || inUse.contains i.ref }

def removeDead : (fuel : Nat) → List Block → Nat × List Block
  | 0, bs => (0, bs)
  | fuel + 1, bs =>
    let kept := dropUnused bs
    if size kept = size bs then (0, bs)
    else
      let (n, out) := removeDead fuel kept
      (size bs - size kept + n, out)

def round (bs : List Block) : Stats × List Block :=
  let (folded, bs) := foldConstants bs
  let (branches, bs) := foldBranches bs
  let (removed, bs) := removeUnreachable bs
  let (merged, bs) := mergeBlocks bs.length bs
  let (dead, bs) := removeDead (size bs) bs
  (⟨folded, branches, removed, merged, dead⟩, bs)

def rounds : (fuel : Nat) → Stats → List Block → Stats × List Block
  | 0, total, bs => (total, bs)
  | fuel + 1, total, bs =>
    let (s, bs) := round bs
    if s.total = 0 then (total, bs) else rounds fuel (total.add s) bs

def condBranches (bs : List Block) : Nat :=
  (bs.flatMap (·.instrs)).countP (·.op = .condBr)

/-- Bounds the rounds that change something: each one makes this smaller. -/
def measure (bs : List Block) : Nat := size bs + bs.length + condBranches bs

end Optimize

def Function.optimize (f : Function) : Stats × Function :=
  if f.native || !f.hasBody then ({}, f)
  else
    let (s, bs) := Optimize.rounds (Optimize.measure f.blocks + 1) {} f.blocks
    (s, { f with blocks := bs })

end RealScript
