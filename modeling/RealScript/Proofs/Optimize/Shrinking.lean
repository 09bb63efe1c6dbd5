import RealScript.Proofs.Optimize.Branches
import RealScript.Proofs.Optimize.Headers
import RealScript.Proofs.Optimize.Merge
import RealScript.Proofs.Optimize.Results

/-! # Passes make code smaller

Each pass drops as many instructions, conditional branches or blocks as it reports, and one that
reports nothing changes nothing. This needs only that blocks end as they should, and every pass
leaves them so, whatever becomes of the registers.
-/

namespace RealScript

def Instr.Steers (i i' : Instr) : Prop := i'.op = i.op ∧ i'.targets = i.targets ∨
    i.op = .condBr ∧ i'.op = .br ∧ ∃ t ∈ i.targets, i'.targets = [t]

/-- Instructions of which some were replaced, and some that end no block dropped. -/
inductive Trimmed : List Instr → List Instr → Prop where
  | nil : Trimmed [] []
  | drop {i : Instr} {is is' : List Instr} : i.isTerminator = false → Trimmed is is' →
      Trimmed (i :: is) is'
  | keep {i i' : Instr} {is is' : List Instr} : i.Steers i' → Trimmed is is' →
      Trimmed (i :: is) (i' :: is')

def Block.Trims (b b' : Block) : Prop := b'.ref = b.ref ∧ Trimmed b.instrs b'.instrs

namespace Instr.Steers

variable {i i' : Instr}

theorem refl (i : Instr) : i.Steers i := .inl ⟨rfl, rfl⟩

theorem isTerminator_eq (h : i.Steers i') : i'.isTerminator = i.isTerminator := by
  rcases h with ⟨ho, -⟩ | ⟨ho, ho', -⟩
  · rw [isTerminator, ho]
    rfl
  · simp [isTerminator, ho, ho', Opcode.isTerminator]

theorem aims (h : i.Steers i') {labels : List BlockRef} (ha : i.Aims labels) : i'.Aims labels := by
  rcases h with ⟨ho, ht⟩ | ⟨ho, ho', t, ht, ht'⟩
  · refine ⟨ht ▸ ha.targets, fun hn => ?_, fun hb => ?_, fun hc => ?_⟩
    · rw [ht]
      exact ha.inner (by rwa [isTerminator, ho] at hn)
    · rw [ht]
      exact ha.br (ho ▸ hb)
    · rw [ht]
      exact ha.condBr (ho ▸ hc)
  · refine ⟨fun x hx => ?_, fun hn => ?_, fun _ => ⟨t, ht'⟩, fun hc => ?_⟩
    · rw [ht'] at hx
      obtain rfl := List.mem_singleton.mp hx
      exact ha.targets x ht
    · simp [isTerminator, ho', Opcode.isTerminator] at hn
    · rw [ho'] at hc
      cases hc

theorem op_of_condBr (h : i.Steers i') (hc : i'.op = .condBr) : i.op = .condBr := by
  rcases h with ⟨ho, -⟩ | ⟨ho, -⟩
  · exact ho ▸ hc
  · exact ho

end Instr.Steers

namespace Trimmed

variable {is is' js js' : List Instr}

theorem refl (is : List Instr) : Trimmed is is := by
  induction is with
  | nil => exact .nil
  | cons i is ih => exact .keep (.refl i) ih

section

variable (h : Trimmed is is')

include h

theorem append (h' : Trimmed js js') : Trimmed (is ++ js) (is' ++ js') := by
  induction h with
  | nil => exact h'
  | drop hi _ ih => exact .drop hi ih
  | keep hi _ ih => exact .keep hi ih

theorem mapArgs (g : Operand → Operand) : Trimmed is (is'.map (·.mapArgs g)) := by
  induction h with
  | nil => exact .nil
  | drop hi _ ih => exact .drop hi ih
  | keep hs _ ih => exact .keep hs ih

theorem exists_of_mem {i' : Instr} (hi : i' ∈ is') : ∃ i ∈ is, i.Steers i' := by
  induction h with
  | nil => cases hi
  | drop _ _ ih =>
    obtain ⟨i, hi, hs⟩ := ih hi
    exact ⟨i, List.mem_cons_of_mem _ hi, hs⟩
  | keep hs _ ih =>
    rcases List.mem_cons.mp hi with rfl | hi
    · exact ⟨_, List.mem_cons_self, hs⟩
    · obtain ⟨i, hi, hs⟩ := ih hi
      exact ⟨i, List.mem_cons_of_mem _ hi, hs⟩

theorem length_le : is'.length ≤ is.length := by
  induction h with
  | nil => exact Nat.le_refl _
  | drop _ _ ih => exact Nat.le_succ_of_le ih
  | keep _ _ ih => exact Nat.succ_le_succ ih

theorem countP_le : is'.countP (·.op = .condBr) ≤ is.countP (·.op = .condBr) := by
  induction h with
  | nil => exact Nat.le_refl _
  | drop _ _ ih =>
    rw [List.countP_cons]
    exact Nat.le_add_right_of_le ih
  | keep hs _ ih =>
    rw [List.countP_cons, List.countP_cons]
    refine Nat.add_le_add ih ?_
    split
    · rename_i hc
      exact Nat.le_of_eq (if_pos (by simpa using hs.op_of_condBr (by simpa using hc))).symm
    · exact Nat.zero_le _

end

theorem exists_end {body : List Instr} {t : Instr} (h : Trimmed (body ++ [t]) is')
    (ht : t.isTerminator = true) (hbody : ∀ i ∈ body, i.isTerminator = false) :
    ∃ body' t', is' = body' ++ [t'] ∧ t'.isTerminator = true ∧
    ∀ i ∈ body', i.isTerminator = false := by
  induction body generalizing is' with
  | nil =>
    cases h with
    | drop hn => simp [hn] at ht
    | keep hs hrest =>
      cases hrest
      exact ⟨[], _, rfl, hs.isTerminator_eq.trans ht, fun _ hi => by cases hi⟩
  | cons i body ih =>
    have hi := hbody i List.mem_cons_self
    have hrest : ∀ j ∈ body, j.isTerminator = false := fun j hj => hbody j
      (List.mem_cons_of_mem _ hj)
    cases h with
    | drop _ h => exact ih h hrest
    | keep hs h =>
      obtain ⟨body', t', rfl, ht', hbody'⟩ := ih h hrest
      refine ⟨_ :: body', t', rfl, ht', fun j hj => ?_⟩
      rcases List.mem_cons.mp hj with rfl | hj
      · exact hs.isTerminator_eq.trans hi
      · exact hbody' j hj

end Trimmed

namespace Optimize

variable {bs bs' : List Block}

theorem size_eq (bs : List Block) : size bs = (code bs).length := rfl

theorem condBranches_eq (bs : List Block) :
    condBranches bs = (code bs).countP (·.op = .condBr) := rfl

/-! ## Trimmed blocks -/

section

variable (h : List.Forall₂ Block.Trims bs bs')

include h

theorem map_ref_of_trims : bs'.map (·.ref) = bs.map (·.ref) := by
  induction h with
  | nil => rfl
  | cons hb _ ih => rw [List.map_cons, List.map_cons, hb.1, ih]

theorem exists_of_mem_trims {b' : Block} (hb : b' ∈ bs') : ∃ b ∈ bs, b.Trims b' := by
  induction h with
  | nil => cases hb
  | cons ht _ ih =>
    rcases List.mem_cons.mp hb with rfl | hb
    · exact ⟨_, List.mem_cons_self, ht⟩
    · obtain ⟨b, hb, ht⟩ := ih hb
      exact ⟨b, List.mem_cons_of_mem _ hb, ht⟩

theorem trimmed_code : Trimmed (code bs) (code bs') := by
  induction h with
  | nil => exact .nil
  | cons hb _ ih => exact hb.2.append ih

end

theorem wired_of_trims (W : Wired bs) (h : List.Forall₂ Block.Trims bs bs') : Wired bs' where
  nonempty := by
    have hlen := h.length_eq
    intro hn
    rw [hn] at hlen
    exact W.nonempty (List.eq_nil_of_length_eq_zero hlen)
  labels := map_ref_of_trims h ▸ W.labels
  closed b' hb' := by
    obtain ⟨b, hb, -, ht⟩ := exists_of_mem_trims h hb'
    obtain ⟨body, t, he, hend, hbody⟩ := W.closed b hb
    rw [he] at ht
    exact ht.exists_end hend hbody
  aims i' hi' := by
    obtain ⟨i, hi, hs⟩ := (trimmed_code h).exists_of_mem hi'
    rw [map_ref_of_trims h]
    exact hs.aims (W.aims i hi)

/-! ## What a pass does -/

structure Reduces (bs : List Block) (n dropped : Nat) (bs' : List Block) : Prop where
  wired : Wired bs'
  measure : measure bs' + n ≤ measure bs
  length : bs'.length + dropped = bs.length
  same : n = 0 → bs' = bs

theorem Reduces.trans {cs : List Block} {m n d e : Nat} (h : Reduces bs m d bs')
    (h' : Reduces bs' n e cs) : Reduces bs (m + n) (d + e) cs where
  wired := h'.wired
  measure := by
    have := h.measure
    have := h'.measure
    omega
  length := by
    have := h.length
    have := h'.length
    omega
  same hz := (h'.same (by omega)).trans (h.same (by omega))

theorem Reduces.refl (W : Wired bs) : Reduces bs 0 0 bs := ⟨W, Nat.le_refl _, rfl, fun _ => rfl⟩

theorem reduces_of_trims (W : Wired bs) (h : List.Forall₂ Block.Trims bs bs') {n : Nat}
    (hn : size bs' + condBranches bs' + n ≤ size bs + condBranches bs) (hs : n = 0 → bs' = bs) :
    Reduces bs n 0 bs' where
  wired := wired_of_trims W h
  measure := by
    have := h.length_eq
    simp only [Optimize.measure]
    omega
  length := h.length_eq.symm
  same := hs

theorem size_le_of_trims (h : List.Forall₂ Block.Trims bs bs') : size bs' ≤ size bs := by
  rw [size_eq, size_eq]
  exact (trimmed_code h).length_le

theorem condBranches_le_of_trims (h : List.Forall₂ Block.Trims bs bs') :
    condBranches bs' ≤ condBranches bs := by
  rw [condBranches_eq, condBranches_eq]
  exact (trimmed_code h).countP_le

/-! ### Constants -/

theorem isTerminator_of_fold? {i : Instr} {c : Operand} (h : i.fold? = some c) :
    i.isTerminator = false := by
  have hnum := Instr.isNumeric_of_fold? h
  cases ho : i.op <;> simp_all [Instr.isTerminator, Opcode.isTerminator, Opcode.isNumeric]

theorem steers_mapArgs (i : Instr) (g : Operand → Operand) :
    i.Steers (i.mapArgs g) := .inl ⟨rfl, rfl⟩

theorem trimmed_foldInstrs (known : Known) (is : List Instr) :
    Trimmed is (foldInstrs known is).2 := by
  induction is generalizing known with
  | nil => exact .nil
  | cons i is ih =>
    simp only [foldInstrs]
    split
    · rename_i hc
      exact .drop (isTerminator_of_fold? (i := i.mapArgs known.apply) hc) (ih _)
    · exact .keep (steers_mapArgs i _) (ih _)

theorem length_foldInstrs (known : Known) (is : List Instr) :
    (foldInstrs known is).1.length + (foldInstrs known is).2.length = known.length + is.length := by
  induction is generalizing known with
  | nil => rfl
  | cons i is ih =>
    simp only [foldInstrs]
    split
    · have := ih ((i.ref, ‹Operand›) :: known)
      simp only [List.length_cons] at this ⊢
      simp only [Instr.mapArgs]
      omega
    · have := ih known
      simp only [List.length_cons]
      omega

theorem trims_foldBlocks (known : Known) (bs : List Block) :
    List.Forall₂ Block.Trims bs (foldBlocks known bs).2 := by
  induction bs generalizing known with
  | nil => exact .nil
  | cons b bs ih => exact .cons ⟨rfl, trimmed_foldInstrs known b.instrs⟩ (ih _)

theorem size_foldBlocks (known : Known) (bs : List Block) :
    (foldBlocks known bs).1.length + size (foldBlocks known bs).2 = known.length + size bs := by
  induction bs generalizing known with
  | nil => rfl
  | cons b bs ih =>
    have hb := length_foldInstrs known b.instrs
    have hbs := ih (foldInstrs known b.instrs).1
    simp only [foldBlocks, size, List.flatMap_cons, List.length_append] at hbs ⊢
    omega

theorem apply_nil (x : Operand) : Known.apply [] x = x := by
  cases x <;> rfl

theorem mapArgs_apply_nil (i : Instr) : i.mapArgs (Known.apply []) = i := by
  simp [Instr.mapArgs, funext apply_nil]

theorem foldInstrs_of_eq_nil {is : List Instr} (h : (foldInstrs [] is).1 = []) :
    (foldInstrs [] is).2 = is ∧ ∀ i ∈ is, i.fold? = none := by
  induction is with
  | nil => exact ⟨rfl, fun _ hi => by cases hi⟩
  | cons i is ih =>
    simp only [foldInstrs, mapArgs_apply_nil] at h ⊢
    split at h
    · rename_i c hc
      have hlen := length_foldInstrs [(i.ref, c)] is
      have hle := (trimmed_foldInstrs [(i.ref, c)] is).length_le
      rw [h] at hlen
      simp only [List.length_nil, List.length_cons] at hlen
      omega
    · rename_i hc
      obtain ⟨heq, hall⟩ := ih h
      refine ⟨by rw [heq], fun j hj => ?_⟩
      rcases List.mem_cons.mp hj with rfl | hj
      · exact hc
      · exact hall j hj

theorem foldBlocks_of_eq_nil (h : (foldBlocks [] bs).1 = []) :
    (foldBlocks [] bs).2 = bs ∧ ∀ i ∈ code bs, i.fold? = none := by
  induction bs with
  | nil => exact ⟨rfl, fun _ hi => by cases hi⟩
  | cons b bs ih =>
    simp only [foldBlocks] at h ⊢
    have hfirst : (foldInstrs [] b.instrs).1 = [] := by
      have hlen := size_foldBlocks (foldInstrs [] b.instrs).1 bs
      have hle := size_le_of_trims (trims_foldBlocks (foldInstrs [] b.instrs).1 bs)
      rw [h, List.length_nil] at hlen
      exact List.eq_nil_of_length_eq_zero (by omega)
    obtain ⟨heq, hall⟩ := foldInstrs_of_eq_nil hfirst
    rw [hfirst] at h ⊢
    obtain ⟨heq', hall'⟩ := ih h
    refine ⟨by rw [heq, heq'], fun i hi => ?_⟩
    rcases List.mem_append.mp (show i ∈ b.instrs ++ code bs from hi) with hi | hi
    · exact hall i hi
    · exact hall' i hi

theorem trims_foldConstants (bs : List Block) : List.Forall₂ Block.Trims bs (foldConstants bs).2 :=
  List.forall₂_map_right_iff.mpr ((trims_foldBlocks [] bs).imp fun _ _ h => ⟨h.1, h.2.mapArgs _⟩)

theorem foldConstants_of_eq_zero (h : (foldConstants bs).1 = 0) :
    (foldConstants bs).2 = bs ∧ ∀ i ∈ code bs, i.fold? = none := by
  have hnil : (foldBlocks [] bs).1 = [] := List.eq_nil_of_length_eq_zero h
  obtain ⟨heq, hall⟩ := foldBlocks_of_eq_nil hnil
  refine ⟨?_, hall⟩
  simp only [foldConstants, hnil, heq, Block.mapInstrs, mapArgs_apply_nil, List.map_id']

theorem reduces_foldConstants (W : Wired bs) :
    Reduces bs (foldConstants bs).1 0 (foldConstants bs).2 := by
  have ht := trims_foldConstants bs
  refine reduces_of_trims W ht ?_ fun h => (foldConstants_of_eq_zero h).1
  have hsize := size_foldBlocks [] bs
  have hcond := condBranches_le_of_trims ht
  have hmap : size (foldConstants bs).2 = size (foldBlocks [] bs).2 := by
    simp [foldConstants, size, Block.mapInstrs, List.length_flatMap, Function.comp_def]
  have hcount : (foldConstants bs).1 = (foldBlocks [] bs).1.length := rfl
  rw [List.length_nil] at hsize
  omega

/-! ### Branches -/

theorem foldBlockBranch?_eq_some {b b' : Block} (h : foldBlockBranch? b = some b') :
    ∃ body t t', b.instrs = body ++ [t] ∧ foldBranch? t = some t' ∧
      b' = { b with instrs := body ++ [t'] } := by
  simp only [foldBlockBranch?, Option.bind_eq_bind, Option.bind_eq_some_iff, Option.pure_def] at h
  obtain ⟨t, ht, t', ht', he⟩ := h
  obtain ⟨body, hb⟩ := List.getLast?_eq_some_iff.mp ht
  refine ⟨body, t, t', hb, ht', ?_⟩
  rw [← Option.some.inj he, hb, List.dropLast_concat]

theorem steers_foldBranch {i i' : Instr} (h : foldBranch? i = some i') : i.Steers i' := by
  obtain ⟨ho, x, xs, c, t, -, -, ht, rfl⟩ := foldBranch?_eq_some h
  exact .inr ⟨ho, rfl, t, List.mem_of_getElem? ht, rfl⟩

theorem trims_foldBlockBranch (b : Block) : b.Trims ((foldBlockBranch? b).getD b) := by
  cases h : foldBlockBranch? b with
  | none => exact ⟨rfl, .refl _⟩
  | some b' =>
    obtain ⟨body, t, t', hb, ht, rfl⟩ := foldBlockBranch?_eq_some h
    refine ⟨rfl, ?_⟩
    rw [hb]
    exact (Trimmed.refl body).append (.keep (steers_foldBranch ht) .nil)

theorem trims_foldBranches (bs : List Block) : List.Forall₂ Block.Trims bs (foldBranches bs).2 :=
  List.forall₂_map_right_iff.mpr (List.forall₂_same.mpr fun b _ => trims_foldBlockBranch b)

theorem condBranches_foldBranches (bs : List Block) :
    condBranches (foldBranches bs).2 + (foldBranches bs).1 = condBranches bs := by
  induction bs with
  | nil => rfl
  | cons b bs ih =>
    simp only [foldBranches, condBranches, List.map_cons, List.flatMap_cons, List.countP_append,
      List.countP_cons] at ih ⊢
    cases h : foldBlockBranch? b with
    | none =>
      simp only [Option.getD_none, Option.isSome_none, Bool.false_eq_true, if_false]
      omega
    | some b' =>
      obtain ⟨body, t, t', hb, ht, rfl⟩ := foldBlockBranch?_eq_some h
      obtain ⟨ho, x, xs, c, r, -, -, -, rfl⟩ := foldBranch?_eq_some ht
      simp only [Option.getD_some, Option.isSome_some, if_true, hb, List.countP_append,
        List.countP_singleton, ho, decide_true, reduceCtorEq, decide_false,
          Bool.false_eq_true, if_false]
      omega

theorem foldBranches_of_eq_zero (h : (foldBranches bs).1 = 0) :
    (foldBranches bs).2 = bs ∧ ∀ b ∈ bs, foldBlockBranch? b = none := by
  have hall : ∀ b ∈ bs, foldBlockBranch? b = none := by
    intro b hb
    simpa using List.countP_eq_zero.mp h b hb
  refine ⟨?_, hall⟩
  conv_rhs => rw [← List.map_id bs]
  exact List.map_congr_left fun b hb => by rw [hall b hb]; rfl

theorem reduces_foldBranches (W : Wired bs) :
    Reduces bs (foldBranches bs).1 0 (foldBranches bs).2 := by
  have ht := trims_foldBranches bs
  refine reduces_of_trims W ht ?_ fun h => (foldBranches_of_eq_zero h).1
  have := size_le_of_trims ht
  have := condBranches_foldBranches bs
  omega

/-! ### Blocks that cannot be reached -/

theorem code_filter_sublist (keep : Block → Bool) (bs : List Block) :
    (code (bs.filter keep)).Sublist (code bs) := by
  induction bs with
  | nil => exact .slnil
  | cons b bs ih =>
    rw [List.filter_cons]
    split
    · exact (List.Sublist.refl _).append ih
    · exact ih.trans (List.sublist_append_right _ _)

theorem mem_reachable_of_target (W : Wired bs) {b : Block} (hb : b ∈ bs) (hr : b.ref ∈ reachable bs)
    {i : Instr} (hi : i ∈ b.instrs) {r : BlockRef} (ht : some r ∈ i.targets) :
    r ∈ reachable bs := by
  have hic : i ∈ code bs := mem_code.mpr ⟨b, hb, hi⟩
  have hterm : i.isTerminator = true := by
    by_contra hn
    rw [(W.aims i hic).inner (by simpa using hn)] at ht
    cases ht
  obtain ⟨pre, post, he⟩ := List.append_of_mem hi
  obtain rfl := ((W.closed b hb).isTerminator_iff he).mp hterm
  have hs : r ∈ successorsIn bs b.ref := by
    rw [successorsIn, find?_eq_some W.labels hb]
    simpa [Block.successors_eq he hterm] using ht
  obtain ⟨e, rest, hne⟩ := List.exists_cons_of_ne_nil W.nonempty
  exact (walk_reachable (b := e) (by rw [hne]; rfl)).done b.ref hr (by simp) r hs

theorem wired_removeUnreachable (W : Wired bs) : Wired (removeUnreachable bs).2 where
  nonempty := removeUnreachable_ne_nil W.nonempty
  labels := W.labels.sublist (List.filter_sublist.map _)
  closed b hb := W.closed b (List.mem_filter.mp hb).1
  aims i hi := by
    obtain ⟨b, hb, hib⟩ := mem_code.mp hi
    obtain ⟨hb, hr⟩ := List.mem_filter.mp hb
    have ha := W.aims i (mem_code.mpr ⟨b, hb, hib⟩)
    refine { ha with targets := fun t ht => ?_ }
    obtain ⟨r, hrm, rfl⟩ := ha.targets t ht
    obtain ⟨c, hc, rfl⟩ := List.mem_map.mp hrm
    have hreach := mem_reachable_of_target W hb (by simpa using hr) hib ht
    exact ⟨c.ref, List.mem_map_of_mem (List.mem_filter.mpr ⟨hc, by simpa using hreach⟩), rfl⟩

theorem removeUnreachable_of_eq_zero (h : (removeUnreachable bs).1 = 0) :
    (removeUnreachable bs).2 = bs ∧ ∀ b ∈ bs, b.ref ∈ reachable bs := by
  have hle : bs.length ≤ (removeUnreachable bs).2.length := Nat.le_of_sub_eq_zero h
  have heq : (removeUnreachable bs).2 = bs := List.filter_sublist.eq_of_length_le hle
  refine ⟨heq, fun b hb => ?_⟩
  rw [← heq] at hb
  simpa using (List.mem_filter.mp hb).2

theorem reduces_removeUnreachable (W : Wired bs) :
    Reduces bs (removeUnreachable bs).1 (removeUnreachable bs).1 (removeUnreachable bs).2 := by
  have hsub := code_filter_sublist (fun b => (reachable bs).contains b.ref) bs
  have hsize : size (removeUnreachable bs).2 ≤ size bs := by
    rw [size_eq, size_eq]
    exact hsub.length_le
  have hcond : condBranches (removeUnreachable bs).2 ≤ condBranches bs := by
    rw [condBranches_eq, condBranches_eq]
    exact hsub.countP_le
  have hlen : (removeUnreachable bs).2.length + (removeUnreachable bs).1 = bs.length :=
    Nat.add_sub_cancel' (List.length_filter_le _ _)
  refine ⟨wired_removeUnreachable W, ?_, hlen, fun h => (removeUnreachable_of_eq_zero h).1⟩
  simp only [Optimize.measure]
  omega

/-! ### Merging -/

theorem Merging.reduces {b next : Block} (W : Wired bs) (M : Merging bs b next) :
    Reduces bs 1 1 (merged bs b next) := by
  obtain ⟨rest, hold, hnew⟩ := M.exists_perm W
  obtain ⟨body, t, he, -, -, hinstrs⟩ := M.absorb_instrs
  have hlen : (merged bs b next).length + 1 = bs.length := by
    rw [hold.length_eq, hnew.length_eq]
    rfl
  have hsize : size (merged bs b next) ≤ size bs := by
    rw [size_eq, size_eq, code, code, (hnew.flatMap_right _).length_eq,
      (hold.flatMap_right _).length_eq]
    simp only [List.flatMap_cons, hinstrs, he, List.length_append, List.length_map,
      List.length_singleton]
    omega
  have hcond : condBranches (merged bs b next) ≤ condBranches bs := by
    rw [condBranches_eq, condBranches_eq, code, code, (hnew.flatMap_right _).countP_eq,
      (hold.flatMap_right _).countP_eq]
    simp only [List.flatMap_cons, hinstrs, he, List.countP_append, List.countP_map,
      Function.comp_def]
    omega
  refine ⟨M.wired W, ?_, hlen, fun h => by cases h⟩
  simp only [Optimize.measure]
  omega

theorem reduces_mergeBlocks (fuel : Nat) (W : Wired bs) :
    Reduces bs (mergeBlocks fuel bs).1 (mergeBlocks fuel bs).1 (mergeBlocks fuel bs).2 := by
  induction fuel generalizing bs with
  | zero => exact .refl W
  | succ fuel ih =>
    rw [mergeBlocks]
    cases h : mergeOnce? bs with
    | none => exact .refl W
    | some bs' =>
      obtain ⟨b, next, M, rfl⟩ := mergeOnce?_eq_some W h
      have hm := M.reduces W
      have := hm.trans (ih hm.wired)
      rwa [Nat.add_comm 1] at this

/-! ### Unused results -/

theorem isTerminator_of_isPure {i : Instr} (h : i.op.isPure = true) : i.isTerminator = false := by
  cases ho : i.op <;> simp_all [Instr.isTerminator, Opcode.isTerminator, Opcode.isPure]

theorem trimmed_filter {keep : Instr → Bool} (is : List Instr)
    (h : ∀ i ∈ is, keep i = false → i.isTerminator = false) : Trimmed is (is.filter keep) := by
  induction is with
  | nil => exact .nil
  | cons i is ih =>
    have hrest := ih fun j hj => h j (List.mem_cons_of_mem _ hj)
    cases hk : keep i with
    | true =>
      rw [List.filter_cons_of_pos hk]
      exact .keep (.refl i) hrest
    | false =>
      rw [List.filter_cons_of_neg (by simp [hk])]
      exact .drop (h i List.mem_cons_self hk) hrest

theorem trims_dropUnused (bs : List Block) : List.Forall₂ Block.Trims bs (dropUnused bs) := by
  refine List.forall₂_map_right_iff.mpr (List.forall₂_same.mpr fun b _ => ⟨rfl, ?_⟩)
  refine trimmed_filter _ fun i _ hk => isTerminator_of_isPure ?_
  simp only [Bool.or_eq_false_iff, Bool.not_eq_false'] at hk
  exact hk.1

theorem code_dropUnused (bs : List Block) :
    code (dropUnused bs) = (code bs).filter fun i => !i.op.isPure || (used bs).contains i.ref := by
  simp only [dropUnused, code, List.flatMap_map, List.filter_flatMap]

theorem dropUnused_of_size_eq (h : size (dropUnused bs) = size bs) :
    dropUnused bs = bs ∧ ∀ i ∈ code bs, i.op.isPure = true → i.ref ∈ used bs := by
  rw [size_eq, size_eq, code_dropUnused] at h
  have hall := List.filter_eq_self.mp (List.filter_sublist.eq_of_length h)
  refine ⟨?_, fun i hi hp => ?_⟩
  · conv_rhs => rw [← List.map_id bs]
    refine List.map_congr_left fun b hb => ?_
    have : b.instrs.filter _ = b.instrs :=
      List.filter_eq_self.mpr fun i hi => hall i (mem_code.mpr ⟨b, hb, hi⟩)
    simp only [this, id]
  · simpa [hp] using hall i hi

theorem reduces_removeDead (fuel : Nat) (W : Wired bs) :
    Reduces bs (removeDead fuel bs).1 0 (removeDead fuel bs).2 := by
  induction fuel generalizing bs with
  | zero => exact .refl W
  | succ fuel ih =>
    rw [removeDead]
    by_cases h : size (dropUnused bs) = size bs
    · simp only [if_pos h]
      exact .refl W
    · simp only [if_neg h]
      have ht := trims_dropUnused bs
      have hle := size_le_of_trims ht
      have hcond := condBranches_le_of_trims ht
      have hdrop : Reduces bs (size bs - size (dropUnused bs)) 0 (dropUnused bs) :=
        reduces_of_trims W ht (by omega) fun hz => absurd (by omega) h
      exact hdrop.trans (ih hdrop.wired)

/-! ### All passes -/

theorem reduces_round (W : Wired bs) :
    Reduces bs (round bs).1.total ((round bs).1.removed + (round bs).1.merged) (round bs).2 := by
  let kept := (removeUnreachable (foldBranches (foldConstants bs).2).2).2
  let joined := (mergeBlocks kept.length kept).2
  have h₁ := reduces_foldConstants W
  have h₂ := h₁.trans (reduces_foldBranches h₁.wired)
  have h₃ := h₂.trans (reduces_removeUnreachable h₂.wired)
  have h₄ := h₃.trans (reduces_mergeBlocks kept.length h₃.wired)
  have h₅ := h₄.trans (reduces_removeDead (size joined) h₄.wired)
  simp only [Nat.zero_add, Nat.add_zero] at h₅
  exact h₅

end Optimize

end RealScript
