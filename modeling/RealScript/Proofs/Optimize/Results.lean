import RealScript.Proofs.Optimize.Rewriting

/-! # Constants and unused results

An instruction whose operands are constants computes the same value on every path, so its uses may
be replaced by that value. An instruction whose result nothing uses may go if it does nothing else.
-/

namespace RealScript

variable {i : Instr} {known more : Known} {is : List Instr} {c x : Operand} {r : ResultRef}

namespace Optimize

variable {n : Nat} {bs : List Block}

def keepUsed (inUse : List ResultRef) : Instr → Option Instr :=
  Option.guard fun i => !i.op.isPure || inUse.contains i.ref

theorem keepUsed_eq_some {inUse : List ResultRef} {i' : Instr} (h : keepUsed inUse i = some i') :
    i = i' := by
  simp only [keepUsed, Option.guard_eq_some_iff] at h
  exact h.1

theorem keepUsed_ne_none {inUse : List ResultRef}
    (h : i.op.isPure = false ∨ i.ref ∈ inUse) : keepUsed inUse i ≠ none := by
  have : keepUsed inUse i = some i := by
    simp only [keepUsed, Option.guard_eq_some_iff]
    rcases h with h | h <;> simp [h]
  simp [this]

theorem dropUnused_eq (bs : List Block) :
    dropUnused bs = rewriteBlocks (fun _ => true) (keepUsed (used bs)) bs := by
  simp only [dropUnused, rewriteBlocks, Block.rewrite, keepUsed, List.filter_true,
    List.filterMap_eq_filter]

theorem mem_used (hi : i ∈ code bs) (hr : r ∈ i.uses) : r ∈ used bs := by
  obtain ⟨b, hb, hi⟩ := mem_code.mp hi
  exact List.mem_flatMap.mpr ⟨b, hb, List.mem_flatMap.mpr ⟨i, hi, hr⟩⟩

theorem rewriting_dropUnused (S : Sound n bs) :
    Rewriting n bs (fun _ => true) (keepUsed (used bs)) fun _ _ => True where
  entry _ _ := rfl
  successor _ _ _ _ _ _ := rfl
  terminator i _ ht := by
    refine keepUsed_ne_none (.inl ?_)
    cases ho : i.op <;> simp [Instr.isTerminator, ho, Opcode.isTerminator] at ht <;> rfl
  instr i hi i' h := by
    obtain rfl := keepUsed_eq_some h
    exact ⟨rfl, rfl, fun _ h => h, S.fits i hi⟩
  uses i hi i' h r hr _ := by
    obtain rfl := keepUsed_eq_some h
    exact ⟨hr, fun j _ hj => keepUsed_ne_none (.inr (hj ▸ mem_used hi hr))⟩
  start _ := trivial
  dropped ds i rest hp h fr globals _ _ := by
    have hf := S.fits i hp.mem_code
    have hpure : i.op.isPure = true := by
      by_contra hne
      exact keepUsed_ne_none (.inl (by simpa using hne)) h
    obtain ⟨v, hv⟩ := i.effect_of_isPure hpure hf.known hf.operands fr globals
    exact ⟨v, hv, trivial⟩
  kept ds i rest i' hp h fr fr' _ ha globals := by
    obtain rfl := keepUsed_eq_some h
    refine Instr.effect_congr ha.slots (fun x hx => ha.operand?_eq S hp hx ?_) globals
    rintro r rfl _ j _ rfl
    exact keepUsed_ne_none (.inr (mem_used hp.mem_code (List.mem_filterMap.mpr ⟨_, hx, rfl⟩)))
  recorded _ _ _ _ _ _ _ _ _ := trivial

theorem preserves_dropUnused (S : Sound n bs) : Preserves n bs (dropUnused bs) := by
  rw [dropUnused_eq]
  exact (rewriting_dropUnused S).preserves S

end Optimize

theorem Frame.operand?_of_number? {x : Float} (h : c.number? = some x) (fr : Frame) :
    fr.operand? c = some (.number x) := by
  cases c <;> simp_all [Operand.number?, Frame.operand?]

theorem Frame.operands?_of_mapM {xs : List Operand} {ys : List Float}
    (h : xs.mapM Operand.number? = some ys) (fr : Frame) (k : Nat) :
    fr.operands? (xs.take k) = some ((ys.take k).map .number) := by
  induction xs generalizing ys k with
  | nil =>
    obtain rfl : [] = ys := by simpa using h
    simp [operands?]
  | cons x xs ih =>
    simp only [List.mapM_cons, Option.bind_eq_bind, Option.bind_eq_some_iff, Option.pure_def] at h
    obtain ⟨y, hy, zs, hzs, he⟩ := h
    cases he
    cases k with
    | zero => rfl
    | succ k => simp only [List.take_succ_cons, operands?, operand?_of_number? hy, ih hzs,
        List.map_cons]

theorem Frame.demanded_of_isNumeric {o : Operation} (ho : o.op.isNumeric = true) {xs : List Float}
    (h : o.args.mapM Operand.number? = some xs) (fr : Frame) :
    ∃ k, fr.demanded o = o.args.take k ∧
      o.op.compute o.pred ((xs.take k).getD 0 0) ((xs.take k).getD 1 0) =
        o.op.compute o.pred (xs.getD 0 0) (xs.getD 1 0) := by
  have hfirst : ((o.args.head?.bind fr.operand?).getD .zero).toNumber = xs.getD 0 0 := by
    cases ha : o.args with
    | nil =>
      obtain rfl : [] = xs := by simpa [ha] using h
      rfl
    | cons x rest =>
      simp only [ha, List.mapM_cons, Option.bind_eq_bind, Option.bind_eq_some_iff,
        Option.pure_def] at h
      obtain ⟨y, hy, zs, -, he⟩ := h
      cases he
      simp [operand?_of_number? hy, Value.toNumber]
  have htwo : ∀ j < 2, (xs.take 2).getD j 0 = xs.getD j 0 := by
    intro j hj
    simp [hj]
  have hone : (xs.take 1).getD 0 0 = xs.getD 0 0 := by simp
  unfold demanded
  cases hop : o.op <;> simp only [hop, Opcode.isNumeric, Bool.false_eq_true] at ho
  case add | sub | mul | div | cmp | xor =>
    exact ⟨2, rfl, by rw [htwo 0 (by omega), htwo 1 (by omega)]⟩
  case not | toBool | toReal => exact ⟨1, rfl, by rw [hone]; rfl⟩
  case and =>
    refine ⟨_, rfl, ?_⟩
    rw [hfirst]
    cases hx : xs.getD 0 0 != 0 with
    | true => simp only [if_true, htwo 0 (by omega), htwo 1 (by omega)]
    | false => simp only [Bool.false_eq_true, if_false, hone, Opcode.compute, hx, Bool.false_and]
  case or =>
    refine ⟨_, rfl, ?_⟩
    rw [hfirst]
    cases hx : xs.getD 0 0 != 0 with
    | true => simp only [if_true, hone, Opcode.compute, hx, Bool.true_or]
    | false => simp only [Bool.false_eq_true, if_false, htwo 0 (by omega), htwo 1 (by omega)]

theorem Instr.isNumeric_of_fold? (h : i.fold? = some c) : i.op.isNumeric = true := by
  by_contra hn
  simp [fold?, hn] at h

theorem Instr.effect_of_fold? (h : i.fold? = some c) (fr : Frame) (globals : Array Value) :
    ∃ x, c.number? = some x ∧ i.effect fr globals = .value (.number x) fr.slots globals := by
  have hnum := isNumeric_of_fold? h
  simp only [fold?, hnum, if_true, Option.bind_eq_bind, Option.bind_eq_some_iff] at h
  obtain ⟨xs, hxs, hc⟩ := h
  obtain ⟨k, hd, hk⟩ := Frame.demanded_of_isNumeric hnum hxs fr
  have hget : ∀ j, (((xs.take k).map Value.number).getD j .zero).toNumber =
    (xs.take k).getD j 0 := by
    intro j
    rw [Value.zero, List.getD_map]
    rfl
  have heff : i.effect fr globals = .value (.number ((i.op.compute i.pred (xs.getD 0 0)
      (xs.getD 1 0)).elim id truthNumber)) fr.slots globals := by
    rw [effect, hd, Frame.operands?_of_mapM hxs, ← hk, ← hget 0, ← hget 1]
    unfold apply
    cases ho : i.op <;> simp only [ho, Opcode.isNumeric, Bool.false_eq_true] at hnum <;> rfl
  rw [heff]
  cases hcomp : i.op.compute i.pred (xs.getD 0 0) (xs.getD 1 0) with
  | inl z =>
    rw [hcomp] at hc
    cases hc
    exact ⟨z, rfl, rfl⟩
  | inr b =>
    rw [hcomp] at hc
    cases hc
    exact ⟨truthNumber b, rfl, rfl⟩

namespace Known

def Constant (known : Known) : Prop := ∀ r c, known.lookup r = some c → ∃ x, c.number? = some x

def Within (known more : Known) : Prop := ∀ r c, known.lookup r = some c → more.lookup r = some c

theorem Within.trans {a b c : Known} (h : a.Within b) (h' : b.Within c) : a.Within c :=
  fun r x hx => h' r x (h r x hx)

theorem apply_of_number? (known : Known) {x : Float} (h : c.number? = some x) :
    known.apply c = c := by
  cases c <;> first | rfl | simp [Operand.number?] at h

theorem apply_result (known : Known) (r : ResultRef) :
    known.apply (.result r) = (known.lookup r).getD (.result r) := rfl

theorem apply_apply (hc : known.Constant) (h : known.Within more)
    (x : Operand) : more.apply (known.apply x) = more.apply x := by
  cases x with
  | result r =>
    cases hr : known.lookup r with
    | none => simp [apply_result, hr]
    | some c =>
      obtain ⟨y, hy⟩ := hc r c hr
      simp [apply_result, hr, h r c hr, apply_of_number? more hy]
  | _ => rfl

theorem apply_eq_result (hc : known.Constant)
    (h : known.apply x = .result r) : x = .result r ∧ known.lookup r = none := by
  cases x with
  | result s =>
    cases hs : known.lookup s with
    | none =>
      simp only [apply_result, hs, Option.getD_none] at h
      exact ⟨h, by rw [← Operand.result.inj h, hs]⟩
    | some c =>
      obtain ⟨y, hy⟩ := hc s c hs
      simp only [apply_result, hs, Option.getD_some] at h
      simp [h, Operand.number?] at hy
  | _ => simp [apply] at h

theorem apply_eq_of_number? (h : known.Within more) {y : Float}
    (hx : (known.apply x).number? = some y) : more.apply x = known.apply x := by
  cases x with
  | result r =>
    cases hr : known.lookup r with
    | none => simp [apply_result, hr, Operand.number?] at hx
    | some c => simp [apply_result, hr, h r c hr]
  | _ => rfl

end Known

theorem Instr.number?_of_fold? (h : i.fold? = some c) : ∀ x ∈ i.args, ∃ y, x.number? = some y := by
  simp only [fold?, isNumeric_of_fold? h, if_true, Option.bind_eq_bind,
    Option.bind_eq_some_iff] at h
  obtain ⟨ys, hys, -⟩ := h
  revert ys
  induction i.args with
  | nil => simp
  | cons x xs ih =>
    intro ys hys z hz
    simp only [List.mapM_cons, Option.bind_eq_bind, Option.bind_eq_some_iff] at hys
    obtain ⟨y, hy, zs, hzs, -⟩ := hys
    rcases List.mem_cons.mp hz with rfl | hz
    · exact ⟨y, hy⟩
    · exact ih zs hzs z hz

theorem Instr.fold?_mapArgs_of_within
    (h : known.Within more) (hf : (i.mapArgs known.apply).fold? = some c) :
    (i.mapArgs more.apply).fold? = some c := by
  have : i.mapArgs more.apply = i.mapArgs known.apply := by
    simp only [mapArgs, Instr.mk.injEq, Operation.mk.injEq, List.map_inj_left, and_true, true_and]
    intro x hx
    obtain ⟨y, hy⟩ := number?_of_fold? hf (known.apply x) (List.mem_map_of_mem hx)
    exact Known.apply_eq_of_number? h hy
  rwa [this]

namespace Optimize

def substitute (known : Known) (i : Instr) : Option Instr := match known.lookup i.ref with
  | some _ => none
  | none => some (i.mapArgs known.apply)

theorem substitute_eq_none : substitute known i = none ↔ ∃ c, known.lookup i.ref = some c := by
  unfold substitute
  cases known.lookup i.ref <;> simp

theorem substitute_eq_some {i' : Instr} :
    substitute known i = some i' ↔ known.lookup i.ref = none ∧ i.mapArgs known.apply = i' := by
  unfold substitute
  cases known.lookup i.ref <;> simp

theorem lookup_foldInstrs
    (h : ∀ i ∈ is, i.ref ≠ r) : (foldInstrs known is).1.lookup r = known.lookup r := by
  induction is generalizing known with
  | nil => rfl
  | cons i is ih =>
    have hi : i.ref ≠ r := h i (by simp)
    have his : ∀ j ∈ is, j.ref ≠ r := fun j hj => h j (by simp [hj])
    simp only [foldInstrs]
    split
    · rw [ih his]
      have : (r == (i.mapArgs known.apply).ref) = false := by simpa [Instr.mapArgs] using hi.symm
      simp [List.lookup_cons, this]
    · exact ih his

theorem lookup_foldBlocks {bs : List Block}
    (h : ∀ i ∈ code bs, i.ref ≠ r) : (foldBlocks known bs).1.lookup r = known.lookup r := by
  induction bs generalizing known with
  | nil => rfl
  | cons b bs ih =>
    simp only [code, List.flatMap_cons, List.mem_append] at h
    simp only [foldBlocks]
    rw [ih fun i hi => h i (.inr hi), lookup_foldInstrs fun i hi => h i (.inl hi)]

def Fresh (known : Known) (is : List Instr) : Prop :=
  (is.map (·.ref)).Nodup ∧ ∀ i ∈ is, known.lookup i.ref = none

theorem Fresh.within_foldInstrs (h : Fresh known is) : known.Within (foldInstrs known is).1 := by
  intro r c hr
  rw [lookup_foldInstrs, hr]
  rintro i hi rfl
  simp [h.2 i hi] at hr

theorem constant_foldInstrs (h : known.Constant) (is : List Instr) :
    (foldInstrs known is).1.Constant := by
  induction is generalizing known with
  | nil => exact h
  | cons i is ih =>
    simp only [foldInstrs]
    split
    · rename_i c hc
      refine ih fun r d hd => ?_
      rw [List.lookup_cons] at hd
      split at hd
      · cases hd
        obtain ⟨x, hx, -⟩ := Instr.effect_of_fold? hc ⟨[], #[], #[]⟩ #[]
        exact ⟨x, hx⟩
      · exact h r d hd
    · exact ih h

theorem foldInstrs_eq (hc : known.Constant)
    (hf : Fresh known is) (hw : (foldInstrs known is).1.Within more)
    (hm : ∀ i ∈ is, more.lookup i.ref = (foldInstrs known is).1.lookup i.ref) :
    (foldInstrs known is).2.map (·.mapArgs more.apply) = is.filterMap (substitute more) ∧
    ∀ i ∈ is, ∀ c, more.lookup i.ref = some c → (i.mapArgs more.apply).fold? = some c := by
  induction is generalizing known with
  | nil => exact ⟨rfl, by simp⟩
  | cons i is ih =>
    obtain ⟨hn, hfresh⟩ := hf
    rw [List.map_cons, List.nodup_cons] at hn
    have hne : ∀ j ∈ is, j.ref ≠ i.ref := fun j hj he => hn.1 (List.mem_map.mpr ⟨j, hj, he⟩)
    have hwk : known.Within more := (Fresh.within_foldInstrs ⟨by simpa using hn, hfresh⟩).trans hw
    simp only [foldInstrs] at hw hm ⊢
    cases hfold : (i.mapArgs known.apply).fold? with
    | some c =>
      simp only [hfold] at hw hm ⊢
      have hc' : Known.Constant ((i.ref, c) :: known) := by
        have := constant_foldInstrs hc [i]
        simp only [foldInstrs, hfold] at this
        exact this
      have hfresh' : Fresh ((i.ref, c) :: known) is := by
        refine ⟨hn.2, fun j hj => ?_⟩
        have : (j.ref == i.ref) = false := by simpa using hne j hj
        simp only [List.lookup_cons, this]
        exact hfresh j (by simp [hj])
      obtain ⟨heq, hall⟩ := ih hc' hfresh' hw fun j hj => hm j (by simp [hj])
      have hi : more.lookup i.ref = some c := by
        rw [hm i (by simp)]
        change (foldInstrs ((i.ref, c) :: known) is).1.lookup i.ref = some c
        rw [lookup_foldInstrs hne, List.lookup_cons_self]
      refine ⟨?_, ?_⟩
      · rw [List.filterMap_cons_none (substitute_eq_none.mpr ⟨c, hi⟩)]
        exact heq
      · intro j hj d hd
        rcases List.mem_cons.mp hj with rfl | hj
        · rw [hi] at hd
          cases hd
          exact Instr.fold?_mapArgs_of_within hwk hfold
        · exact hall j hj d hd
    | none =>
      simp only [hfold] at hw hm ⊢
      obtain ⟨heq, hall⟩ := ih hc ⟨hn.2, fun j hj => hfresh j (by simp [hj])⟩ hw
        fun j hj => hm j (by simp [hj])
      have hi : more.lookup i.ref = none := by
        rw [hm i (by simp), lookup_foldInstrs hne, hfresh i (by simp)]
      refine ⟨?_, ?_⟩
      · rw [List.filterMap_cons_some (substitute_eq_some.mpr ⟨hi, rfl⟩), List.map_cons, heq]
        simp only [Instr.mapArgs, List.map_map, Function.comp_def, Known.apply_apply hc hwk]
      · intro j hj d hd
        rcases List.mem_cons.mp hj with rfl | hj
        · simp [hi] at hd
        · exact hall j hj d hd

theorem foldBlocks_eq {bs : List Block} (hc : known.Constant)
    (hf : Fresh known (code bs)) (hw : (foldBlocks known bs).1.Within more)
    (hm : ∀ i ∈ code bs, more.lookup i.ref = (foldBlocks known bs).1.lookup i.ref) :
    (foldBlocks known bs).2.map (·.mapInstrs (·.mapArgs more.apply)) =
      bs.map (·.rewrite (substitute more)) ∧
    ∀ i ∈ code bs, ∀ c, more.lookup i.ref = some c → (i.mapArgs more.apply).fold? = some c := by
  induction bs generalizing known with
  | nil => exact ⟨rfl, by simp [code]⟩
  | cons b bs ih =>
    obtain ⟨hn, hfresh⟩ := hf
    simp only [code, List.flatMap_cons, List.map_append, List.nodup_append] at hn
    obtain ⟨hnb, hnbs, hdisj⟩ := hn
    have hmem : ∀ i, i ∈ code (b :: bs) ↔ i ∈ b.instrs ∨ i ∈ code bs := by simp [code]
    have hfb : Fresh known b.instrs := ⟨hnb, fun i hi => hfresh i ((hmem i).mpr (.inl hi))⟩
    have hne : ∀ i ∈ b.instrs, ∀ j ∈ code bs, j.ref ≠ i.ref := fun i hi j hj he =>
      hdisj _ (List.mem_map_of_mem hi) _ (List.mem_map_of_mem hj) he.symm
    have hfbs : Fresh (foldInstrs known b.instrs).1 (code bs) := by
      refine ⟨hnbs, fun j hj => ?_⟩
      rw [lookup_foldInstrs fun i hi he => hne i hi j hj he.symm]
      exact hfresh j ((hmem j).mpr (.inr hj))
    have hwb : (foldInstrs known b.instrs).1.Within
        (foldBlocks (foldInstrs known b.instrs).1 bs).1 := by
      intro r c hr
      rw [lookup_foldBlocks, hr]
      rintro j hj rfl
      simp [hfbs.2 j hj] at hr
    simp only [foldBlocks] at hw hm ⊢
    obtain ⟨heq, hall⟩ := foldInstrs_eq hc hfb (hwb.trans hw) fun i hi => by
      rw [hm i ((hmem i).mpr (.inl hi)), lookup_foldBlocks (hne i hi)]
    obtain ⟨heq', hall'⟩ := ih (constant_foldInstrs hc b.instrs) hfbs hw
      fun i hi => hm i ((hmem i).mpr (.inr hi))
    refine ⟨?_, ?_⟩
    · rw [List.map_cons, List.map_cons, heq']
      simp only [Block.mapInstrs, Block.rewrite, heq]
    · intro i hi
      rcases (hmem i).mp hi with hi | hi
      · exact hall i hi
      · exact hall' i hi

def constants (bs : List Block) : Known := (foldBlocks [] bs).1

theorem foldConstants_eq (S : Sound n bs) :
    (foldConstants bs).2 = rewriteBlocks (fun _ => true) (substitute (constants bs)) bs ∧
    ∀ i ∈ code bs, ∀ c, (constants bs).lookup i.ref = some c →
      (i.mapArgs (constants bs).apply).fold? = some c := by
  obtain ⟨heq, hall⟩ := @foldBlocks_eq [] (constants bs) bs (by simp [Known.Constant])
    ⟨S.results, by simp⟩ (fun _ _ h => h) fun _ _ => rfl
  refine ⟨?_, hall⟩
  simp only [rewriteBlocks, List.filter_true, ← heq]
  rfl

theorem constant_foldBlocks (h : known.Constant) (bs : List Block) :
    (foldBlocks known bs).1.Constant := by
  induction bs generalizing known with
  | nil => exact h
  | cons b bs ih => exact ih (constant_foldInstrs h b.instrs)

theorem constant_constants (bs : List Block) : (constants bs).Constant :=
  constant_foldBlocks (by simp [Known.Constant]) bs

theorem mem_of_lookup_constants (S : Sound n bs) (h : (constants bs).lookup r = some c) :
    r.register ≠ none ∧ ∃ i ∈ code bs, i.ref = r ∧ i.op.isNumeric = true := by
  have hmem : ∃ i ∈ code bs, i.ref = r := by
    by_contra hne
    rw [constants, lookup_foldBlocks fun i hi he => hne ⟨i, hi, he⟩] at h
    simp at h
  obtain ⟨i, hi, rfl⟩ := hmem
  have hnum : i.op.isNumeric = true :=
    (i.mapArgs (constants bs).apply).isNumeric_of_fold? ((foldConstants_eq S).2 i hi c h)
  exact ⟨(S.fits i hi).numeric hnum, i, hi, rfl, hnum⟩

def Held (bs : List Block) (ds : List ResultRef) (fr : Frame) : Prop :=
  ∀ r ∈ ds, ∀ c x, (constants bs).lookup r = some c → c.number? = some x → fr.result r = .number x

theorem Held.operand?_apply (S : Sound n bs) {ds : List ResultRef} {rest : List Instr}
    (hp : Standing bs ds (i :: rest) none) {fr fr' : Frame} (h : Held bs ds fr)
    (hx : x ∈ i.args)
    (hsame : (∀ r, x = .result r → (constants bs).lookup r = none) → fr'.operand? x =
    fr.operand? x) :
    fr'.operand? ((constants bs).apply x) = fr.operand? x := by
  cases x with
  | result r =>
    cases hr : (constants bs).lookup r with
    | none =>
      rw [Known.apply_result, hr]
      exact hsame fun s hs => by rw [← Operand.result.inj hs, hr]
    | some c =>
      obtain ⟨y, hy⟩ := constant_constants bs r c hr
      have hu : r ∈ i.uses := List.mem_filterMap.mpr ⟨_, hx, rfl⟩
      have hd := hp.defined S hu (mem_of_lookup_constants S hr).1
      rw [Known.apply_result, hr, Frame.operand?_result, h r hd c y hr hy]
      exact Frame.operand?_of_number? hy fr'
  | _ => exact hsame (by simp)

theorem Held.record_of_ne (S : Sound n bs) {ds : List ResultRef} {rest : List Instr}
    (hp : Standing bs ds (i :: rest) none) {fr : Frame} (h : Held bs ds fr) (slots : Array Value)
    (v : Value) (hr : r ∈ ds) (hne : r ≠ i.ref) {x : Float}
    (hc : (constants bs).lookup r = some c) (hx : c.number? = some x) :
    (Frame.record { fr with slots := slots } i.ref v).result r = .number x := by
  rw [Frame.result_record_of_ne]
  · exact h r hr c x hc hx
  · obtain ⟨j, hj, rfl⟩ := hp.mem_results hr
    by_contra hcon
    obtain ⟨hn, he⟩ := not_or.mp hcon
    exact hne (S.ref_eq_of_register_eq hj hp.mem_code hn (not_not.mp he))

theorem regular_foldConstants (S : Sound n bs) :
    Regular n bs (fun _ => true) (substitute (constants bs)) where
  entry _ _ := rfl
  successor _ _ _ _ _ _ := rfl
  terminator i hi ht hn := by
    obtain ⟨c, hc⟩ := substitute_eq_none.mp hn
    obtain ⟨-, j, hj, he, hnum⟩ := mem_of_lookup_constants S hc
    obtain rfl := S.eq_of_ref_eq hj hi he
    cases ho : j.op <;> simp_all [Instr.isTerminator, Opcode.isTerminator, Opcode.isNumeric]
  instr i hi i' h := by
    obtain ⟨-, rfl⟩ := substitute_eq_some.mp h
    have hf := S.fits i hi
    refine ⟨rfl, rfl, fun _ h => h, { hf with operands := fun y hy => ?_ }⟩
    obtain ⟨x, hx, rfl⟩ := List.mem_map.mp hy
    have hx := hf.operands x hx
    cases x with
    | result r =>
      rw [Known.apply_result]
      cases hr : (constants bs).lookup r with
      | none => simp
      | some c =>
        obtain ⟨y, hy⟩ := constant_constants bs r c hr
        rintro rfl
        simp [Operand.number?] at hy
    | _ => exact hx
  uses i hi i' h r hr _ := by
    obtain ⟨-, rfl⟩ := substitute_eq_some.mp h
    obtain ⟨y, hy, hyr⟩ := List.mem_filterMap.mp hr
    obtain ⟨x, hx, rfl⟩ := List.mem_map.mp hy
    have he : (constants bs).apply x = .result r := by
      cases hxa : (constants bs).apply x <;> simp_all [Operand.result?]
    obtain ⟨rfl, hl⟩ := Known.apply_eq_result (constant_constants bs) he
    refine ⟨List.mem_filterMap.mpr ⟨_, hx, rfl⟩, ?_⟩
    rintro j _ rfl hn
    obtain ⟨c, hc⟩ := substitute_eq_none.mp hn
    rw [hl] at hc
    cases hc

theorem rewriting_foldConstants (S : Sound n bs) :
    Rewriting n bs (fun _ => true) (substitute (constants bs)) (Held bs) where
  toRegular := regular_foldConstants S
  start _ := by simp [Held]
  dropped ds i rest hp h fr globals hinv hsize := by
    obtain ⟨c, hc⟩ := substitute_eq_none.mp h
    have hfold := (foldConstants_eq S).2 i hp.mem_code c hc
    obtain ⟨x, hx, he⟩ := Instr.effect_of_fold? hfold fr globals
    rw [Instr.effect_mapArgs rfl fun y hy => hinv.operand?_apply S hp hy fun _ => rfl] at he
    refine ⟨.number x, he, fun r hr d y hd hy => ?_⟩
    by_cases hri : r = i.ref
    · subst hri
      obtain ⟨k, hk⟩ := Option.ne_none_iff_exists'.mp (mem_of_lookup_constants S hc).1
      rw [Frame.result_record_self hk (hsize ▸ (S.fits i hp.mem_code).register k hk)]
      rw [hc] at hd
      cases hd
      rw [hx] at hy
      rw [Option.some.inj hy]
    · rcases List.mem_append.mp hr with hr | hr
      · exact hinv.record_of_ne S hp fr.slots _ hr hri hd hy
      · exact (hri (by simpa using hr)).elim
  kept ds i rest i' hp h fr fr' hinv ha globals := by
    obtain ⟨-, rfl⟩ := substitute_eq_some.mp h
    refine Instr.effect_mapArgs ha.slots (fun x hx => hinv.operand?_apply S hp hx fun hl => ?_)
      globals
    refine ha.operand?_eq S hp hx ?_
    rintro r rfl _ j _ rfl hn
    obtain ⟨c, hc⟩ := substitute_eq_none.mp hn
    rw [hl j.ref rfl] at hc
    cases hc
  recorded ds i rest hp h fr slots v hinv r hr c x hc hx := by
    have hri : r ≠ i.ref := by
      rintro rfl
      exact h (substitute_eq_none.mpr ⟨c, hc⟩)
    rcases List.mem_append.mp hr with hr | hr
    · exact hinv.record_of_ne S hp slots v hr hri hc hx
    · exact (hri (by simpa using hr)).elim

theorem preserves_foldConstants (S : Sound n bs) : Preserves n bs (foldConstants bs).2 := by
  rw [(foldConstants_eq S).1]
  exact (rewriting_foldConstants S).preserves S

end Optimize

end RealScript
