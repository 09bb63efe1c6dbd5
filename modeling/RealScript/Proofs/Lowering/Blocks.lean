import RealScript.Proofs.Lowering.Progress

/-! # The blocks of a state

What each step of lowering does to the blocks of the module: emitting appends to the block at the
insertion point, and a block that was created is empty.
-/

namespace RealScript

namespace Function

variable {f : Function}

theorem block?_eq_some (ht : f.Tidy) {b : Block} (hb : b ∈ f.blocks) : f.block? b.ref = some b :=
  Optimize.find?_eq_some ht.nodup_ref hb

theorem ref_of_block? {r : BlockRef} {b : Block} (h : f.block? r = some b) : b.ref = r := by
  simpa using List.find?_some h

theorem mem_of_block? {r : BlockRef} {b : Block} (h : f.block? r = some b) : b ∈ f.blocks :=
  List.mem_of_find?_eq_some h

theorem block?_modifyBlock {g : Block → Block} (hg : ∀ b, (g b).ref = b.ref) (r r' : BlockRef) :
    (f.modifyBlock r g).block? r' = if r' = r then (f.block? r').map g else f.block? r' := by
  have hkey : ∀ b : Block, (if b.ref == r then g b else b).ref = b.ref := by
    intro b
    split
    · exact hg b
    · rfl
  simp only [modifyBlock, mapBlocks, block?, List.find?_map, Function.comp_def, hkey]
  cases hb : f.blocks.find? (·.ref == r') with
  | none => simp
  | some b =>
    obtain rfl : b.ref = r' := by simpa using List.find?_some hb
    by_cases hr : b.ref = r <;> simp [hr]

theorem block?_emit (f : Function) (point : BlockRef) (d : Draft) (r : BlockRef) :
    (f.emit point d).2.block? r =
      if r = point then (f.block? r).map (·.push (f.nextInstr point d)) else f.block? r :=
  block?_modifyBlock (f := (f.newResult d.ty).2) (g := (·.push (f.nextInstr point d)))
    (fun _ => rfl) point r

theorem block?_addBlock_self (ht : f.Tidy) (name : String) :
    f.block? (f.addBlock name).1 = none := by
  rw [block?, List.find?_eq_none]
  intro b hb he
  have hindex : b.ref.index = f.labels.length := by
    rw [show b.ref = (f.addBlock name).1 by simpa using he]
    rfl
  have := ht.block b hb
  omega

theorem block?_addBlock (ht : f.Tidy) (name : String) (r : BlockRef) :
    (f.addBlock name).2.block? r =
      if r = (f.addBlock name).1 then some { ref := r } else f.block? r := by
  have hblocks : (f.addBlock name).2.blocks = f.blocks ++ [{ ref := (f.addBlock name).1 }] := rfl
  rw [block?, hblocks, List.find?_append]
  by_cases hr : r = (f.addBlock name).1
  · subst hr
    have hnone := block?_addBlock_self ht name
    rw [block?] at hnone
    rw [hnone, if_pos rfl, Option.none_or]
    exact List.find?_cons_of_pos (by simp)
  · have hne : ((f.addBlock name).1 == r) = false := by simpa using Ne.symm hr
    rw [if_neg hr, List.find?_cons_of_neg (by simp [hne]), List.find?_nil, Option.or_none]
    rfl

end Function

theorem Block.terminator?_push (b : Block) (i : Instr) :
    (b.push i).terminator? = if i.isTerminator then some i else none := by
  simp only [push, terminator?, List.getLast?_append, List.getLast?_singleton, Option.some_or]
  by_cases hi : i.isTerminator = true <;> simp [Option.filter, hi]

namespace Lowering

variable {s t : Lowering}

def block? (s : Lowering) (r : BlockRef) : Option Block :=
  (s.module.function? r.fn).bind (·.block? r)

def withFunction (s : Lowering) (k : Nat) (f : Function) : Lowering :=
  s.setModule (s.module.modify k fun _ => f)

theorem function?_withFunction {k : Nat} {f g : Function} (hf : s.module.function? k = some f)
    (j : Nat) : (s.withFunction k g).module.function? j =
      if j = k then some g else s.module.function? j := by
  rw [withFunction, module_setModule, Module.function?_modify]
  by_cases hj : k = j
  · subst hj
    simp [hf]
  · simp [hj, Ne.symm hj]

theorem block?_withFunction {k : Nat} {f g : Function} (hf : s.module.function? k = some f)
    (r : BlockRef) : (s.withFunction k g).block? r =
      if r.fn = k then g.block? r else s.block? r := by
  rw [block?, function?_withFunction hf]
  split <;> rfl

theorem block?_push (f : Function) (point : Option BlockRef) (r : BlockRef) :
    (s.push f point).block? r = if r.fn = s.module.store.size then f.block? r else s.block? r := by
  rw [block?,
    show (s.push f point).module = { s.module with store := s.module.store.push f } from rfl,
    Module.function?_push]
  split <;> rfl

theorem function?_push (f : Function) (point : Option BlockRef) (k : Nat) :
    (s.push f point).module.function? k =
      if k = s.module.store.size then some f else s.module.function? k :=
  Module.function?_push _ _ _

theorem lt_size_of_function? {k : Nat} {f : Function} (h : s.module.function? k = some f) :
    k < s.module.store.size := (Array.getElem?_eq_some_iff.mp h).1

structure At (s : Lowering) (r : BlockRef) (f : Function) (b : Block) : Prop where
  point : s.builder.point = some r
  function : s.module.function? r.fn = some f
  block : f.block? r = some b
  open_ : b.terminator? = none

namespace At

variable {r : BlockRef} {f : Function} {b : Block}

theorem block?_eq (h : s.At r f b) : s.block? r = some b := by
  rw [Lowering.block?, h.function]
  exact h.block

theorem not_terminated (h : s.At r f b) : s.builder.terminated = false := by
  simp [Builder.terminated, h.point, Module.block?,
    show s.builder.module.function? r.fn = some f from
    h.function, h.block, h.open_]

end At

end Lowering

namespace Lower

open Stateful Lowering

variable {s t : Lowering} {r : BlockRef} {f : Function} {b : Block}

theorem emit_eq_ok (hs : s.At r f b) (hid : f.id = r.fn) {d : Draft} {x : Operand}
    (h : build (.emit d) s = .ok x t) :
    x = .result (f.emit r d).1 ∧ t = s.withFunction r.fn (f.emit r d).2 := by
  obtain ⟨b', hb, rfl⟩ := build_eq_ok h
  obtain ⟨point, f', hp, hf, -, rfl, rfl⟩ := Build.emit_eq_ok hb
  cases hp.symm.trans hs.point
  cases hf.symm.trans hs.function
  exact ⟨rfl, by rw [hid]; rfl⟩

theorem allocate_eq_ok (hs : s.At r f b) (hid : f.id = r.fn) {name : String} {ty : Ty} {slot : Slot}
    (h : build (.allocate name ty) s = .ok slot t) :
    slot = (f.addSlot name ty).1 ∧ t = s.withFunction r.fn (f.addSlot name ty).2 := by
  obtain ⟨b', hb, rfl⟩ := build_eq_ok h
  obtain ⟨point, f', hp, hf, rfl, rfl⟩ := Build.allocate_eq_ok hb
  cases hp.symm.trans hs.point
  cases hf.symm.trans hs.function
  exact ⟨rfl, by rw [hid]; rfl⟩

end Lower

end RealScript
