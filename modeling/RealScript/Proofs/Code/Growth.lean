import RealScript.Proofs.Code.Built

/-! # Code that grows

Building adds to the function of the insertion point and leaves all others alone. Nothing is taken
away: blocks get longer until they have their end, and slots keep their places.
-/

namespace RealScript

structure Block.Grows (b c : Block) : Prop where
  ref : c.ref = b.ref
  instrs : b.instrs <+: c.instrs
  ended : b.terminator?.isSome = true → c = b

theorem Block.Grows.refl (b : Block) : b.Grows b := ⟨rfl, List.prefix_rfl, fun _ => rfl⟩

theorem Block.Grows.trans {b c d : Block} (h : b.Grows c) (h' : c.Grows d) : b.Grows d := by
  refine ⟨h'.ref.trans h.ref, h.instrs.trans h'.instrs, fun hb => ?_⟩
  obtain rfl := h.ended hb
  exact h'.ended hb

theorem Block.Grows.push {b : Block} (i : Instr) (h : b.terminator? = none) : b.Grows (b.push i) :=
  ⟨rfl, List.prefix_append _ _, fun hb => by rw [h] at hb; cases hb⟩

inductive BlocksGrow : List Block → List Block → Prop where
  | more (cs : List Block) : BlocksGrow [] cs
  | cons {b c : Block} {bs cs : List Block} : b.Grows c → BlocksGrow bs cs →
      BlocksGrow (b :: bs) (c :: cs)

namespace BlocksGrow

theorem append (bs cs : List Block) : BlocksGrow bs (bs ++ cs) := by
  induction bs with
  | nil => exact .more _
  | cons b bs ih => exact .cons (.refl b) ih

theorem refl (bs : List Block) : BlocksGrow bs bs := by
  simpa using append bs []

theorem trans {bs cs ds : List Block} (h : BlocksGrow bs cs) (h' : BlocksGrow cs ds) :
    BlocksGrow bs ds := by
  induction h generalizing ds with
  | more => exact .more _
  | cons hb _ ih =>
    cases h' with
    | cons hc h' => exact .cons (hb.trans hc) (ih h')

theorem map {bs : List Block} {g : Block → Block} (h : ∀ b ∈ bs, b.Grows (g b)) :
    BlocksGrow bs (bs.map g) := by
  induction bs with
  | nil => exact .more _
  | cons b bs ih =>
    exact .cons (h b List.mem_cons_self) (ih fun c hc => h c (List.mem_cons_of_mem _ hc))

theorem find? {bs cs : List Block} (h : BlocksGrow bs cs) {r : BlockRef} {b : Block}
    (hb : bs.find? (·.ref == r) = some b) : ∃ c, cs.find? (·.ref == r) = some c ∧ b.Grows c := by
  induction h with
  | more => cases hb
  | @cons b' c bs cs hg _ ih =>
    by_cases hr : b'.ref = r
    · rw [List.find?_cons_of_pos (by simpa using hr)] at hb
      cases hb
      exact ⟨c, List.find?_cons_of_pos (by simpa [hg.ref] using hr), hg⟩
    · rw [List.find?_cons_of_neg (by simpa using hr)] at hb
      rw [List.find?_cons_of_neg (by simpa [hg.ref] using hr)]
      exact ih hb

theorem head? {bs cs : List Block} (h : BlocksGrow bs cs) {b : Block} (hb : bs.head? = some b) :
    ∃ c, cs.head? = some c ∧ b.Grows c := by
  cases h with
  | more => cases hb
  | @cons b' c _ _ hg _ =>
    cases hb
    exact ⟨c, rfl, hg⟩

end BlocksGrow

structure Function.Grows (f g : Function) : Prop where
  ref : g.ref = f.ref
  native : g.native = f.native
  listed : g.listed = f.listed
  slots : f.slots <+: g.slots
  registers : f.registers ≤ g.registers
  blocks : BlocksGrow f.blocks g.blocks

namespace Function.Grows

variable {f g h : Function}

theorem refl (f : Function) : f.Grows f := ⟨rfl, rfl, rfl, List.prefix_rfl, Nat.le_refl _, .refl _⟩

theorem trans (hg : f.Grows g) (hh : g.Grows h) : f.Grows h :=
  ⟨hh.ref.trans hg.ref, hh.native.trans hg.native, hh.listed.trans hg.listed,
    hg.slots.trans hh.slots, Nat.le_trans hg.registers hh.registers, hg.blocks.trans hh.blocks⟩

theorem id (hg : f.Grows g) : g.id = f.id := congrArg FuncRef.id hg.ref

theorem name (hg : f.Grows g) : g.name = f.name := congrArg FuncRef.name hg.ref

theorem hasBody (hg : f.Grows g) (hf : f.hasBody = true) : g.hasBody = true := by
  have hne : f.blocks ≠ [] := by simpa [Function.hasBody] using hf
  obtain ⟨b, hb⟩ := Option.ne_none_iff_exists'.mp (mt List.head?_eq_none_iff.mp hne)
  obtain ⟨c, hc, -⟩ := hg.blocks.head? hb
  cases hb : g.blocks with
  | nil => simp [hb] at hc
  | cons => simp [Function.hasBody, hb]

theorem block? (hg : f.Grows g) {r : BlockRef} {b : Block} (hb : f.block? r = some b) :
    ∃ c, g.block? r = some c ∧ b.Grows c := hg.blocks.find? hb

end Function.Grows

namespace Function

variable (f : Function)

theorem grows_addBlock (name : String) : f.Grows (f.addBlock name).2 :=
  ⟨rfl, rfl, rfl, List.prefix_rfl, Nat.le_refl _, .append _ _⟩

theorem grows_addSlot (name : String) (ty : Ty) : f.Grows (f.addSlot name ty).2 :=
  ⟨rfl, rfl, rfl, List.prefix_append _ _, Nat.le_refl _, .refl _⟩

theorem grows_emit {f : Function} {point : BlockRef} (d : Draft)
    (h : ∀ b ∈ f.blocks, b.ref = point → b.terminator? = none) : f.Grows (f.emit point d).2 := by
  refine ⟨rfl, rfl, rfl, List.prefix_rfl, ?_, BlocksGrow.map fun b hb => ?_⟩
  · simp only [emit, newResult, modifyBlock, mapBlocks]
    split <;> omega
  · by_cases hr : b.ref = point
    · simpa [hr] using Block.Grows.push _ (h b hb hr)
    · simpa [hr] using Block.Grows.refl b

end Function

namespace Module

theorem function?_modify (m : Module) (k j : Nat) (g : Function → Function) :
    (m.modify k g).function? j = if k = j then (m.function? j).map g else m.function? j := by
  simp only [function?, modify, Array.getElem?_modify]

structure GrowsIn (fn : Option Nat) (m m' : Module) : Prop where
  size : m'.store.size = m.store.size
  function : ∀ k f, m.function? k = some f → ∃ g, m'.function? k = some g ∧ f.Grows g
  others : ∀ k, fn ≠ some k → m'.function? k = m.function? k

theorem growsIn_modify {m : Module} {k : Nat} {f g : Function} (hf : m.function? k = some f)
    (hg : f.Grows g) : m.GrowsIn (some k) (m.modify k fun _ => g) := by
  refine ⟨by simp [modify], fun j f' hf' => ?_, fun j hj => ?_⟩
  · rw [function?_modify]
    by_cases hkj : k = j
    · subst hkj
      cases hf.symm.trans hf'
      exact ⟨g, by simp [hf], hg⟩
    · exact ⟨f', by simp [hkj, hf'], .refl f'⟩
  · rw [function?_modify, if_neg fun h => hj (by rw [h])]

end Module

def Module.Numbered (m : Module) : Prop := ∀ k f, m.function? k = some f → f.id = k

theorem Module.Numbered.modify {m : Module} (h : m.Numbered) {k : Nat} {f g : Function}
    (hf : m.function? k = some f) (hg : g.ref = f.ref) : (m.modify k fun _ => g).Numbered := by
  intro j f' hf'
  rw [function?_modify] at hf'
  split at hf'
  · subst k
    obtain ⟨f'', hf'', rfl⟩ := Option.map_eq_some_iff.mp hf'
    exact (congrArg FuncRef.id hg).trans (h j f hf)
  · exact h j f' hf'

theorem Builder.Change.exists_grows {b b' : Builder} (h : b.Change b') (hn : b.module.Numbered)
    (ht : ∀ f, b.function? = some f → f.Tidy) :
    ∃ point f g, b.point = some point ∧ b.module.function? point.fn = some f ∧ f.Grows g ∧ g.Tidy ∧
      b' = { b with module := b.module.modify point.fn fun _ => g } := by
  have hfun : ∀ {point f}, b.point = some point → b.module.function? point.fn = some f →
      f.id = point.fn ∧ f.Tidy := by
    intro point f hp hf
    exact ⟨hn _ _ hf, ht f (by simp [Builder.function?, hp, hf])⟩
  cases h with
  | @block point f name hp hf =>
    obtain ⟨hid, htidy⟩ := hfun hp hf
    exact ⟨point, f, _, hp, hf, f.grows_addBlock name, htidy.addBlock name, by rw [hid]⟩
  | @slot point f name ty hp hf =>
    obtain ⟨hid, htidy⟩ := hfun hp hf
    exact ⟨point, f, _, hp, hf, f.grows_addSlot name ty, htidy.addSlot name ty, by rw [hid]⟩
  | @emit point f d hp hf hopen hd =>
    obtain ⟨hid, htidy⟩ := hfun hp hf
    refine ⟨point, f, _, hp, hf, Function.grows_emit d fun c hc hr => ?_, htidy.emit point hd,
      by rw [hid]⟩
    -- The block at the insertion point is the only one with its reference, and it is open.
    have hblock : f.block? point = some c := by
      rw [← hr]
      exact Optimize.find?_eq_some htidy.nodup_ref hc
    simpa [Builder.terminated, hp, Module.block?, hf, hblock] using hopen

end RealScript
