import RealScript.Proofs.Optimize.Rewriting

/-! # Branches on constants and blocks that cannot be reached -/

namespace RealScript.Optimize

variable {n : Nat} {bs : List Block}

theorem foldBranch?_eq_some {i i' : Instr} (h : foldBranch? i = some i') :
    i.op = .condBr ∧ ∃ x xs c t, i.args = x :: xs ∧ x.number? = some c ∧
      i.targets[if c != 0 then 0 else 1]? = some t ∧
      i' = { i with op := .br, args := [], targets := [t] } := by
  by_cases ho : i.op = .condBr
  · cases ha : i.args with
    | nil => simp [foldBranch?, ha] at h
    | cons x xs =>
      simp only [foldBranch?, ho, guard, if_true, ha, List.getElem?_cons_zero, Option.bind_eq_bind,
        Option.pure_def, Option.bind_some, Option.bind_eq_some_iff] at h
      obtain ⟨c, hc, t, ht, hi⟩ := h
      exact ⟨ho, x, xs, c, t, rfl, hc, ht, (Option.some.inj hi).symm⟩
  · simp [foldBranch?, ho, guard] at h

theorem effect_foldBranch {i i' : Instr} (h : foldBranch? i = some i') (fr fr' : Frame)
    (globals : Array Value) : i'.effect fr' globals = i.effect fr globals := by
  obtain ⟨ho, x, xs, c, t, ha, hc, ht, rfl⟩ := foldBranch?_eq_some h
  have hx : fr.operand? x = some (.number c) := by
    cases x <;> simp_all [Operand.number?, Frame.operand?]
  simp only [Instr.effect, Frame.demanded, ho, ha, List.take_succ_cons, List.take_zero,
    Frame.operands?, hx, Instr.apply, List.getElem?_cons_zero, List.headD_cons, Value.toNumber]
  exact congrArg (fun t => Effect.jump t.join) ht.symm

def jumpOr (i : Instr) : Option Instr := some ((foldBranch? i).getD i)

theorem foldBranches_eq (S : Sound n bs) :
    (foldBranches bs).2 = rewriteBlocks (fun _ => true) jumpOr bs := by
  have hmap : ∀ is : List Instr, (∀ i ∈ is, i.isTerminator = false) → is.filterMap jumpOr = is := by
    intro is
    induction is with
    | nil => simp
    | cons i is ih =>
      intro h
      have hi : foldBranch? i = none := by
        cases hf : foldBranch? i with
        | none => rfl
        | some i' =>
          have := (foldBranch?_eq_some hf).1
          simp [Instr.isTerminator, this, Opcode.isTerminator] at h
      rw [List.filterMap_cons_some (show jumpOr i = some i by simp [jumpOr, hi]),
        ih fun j hj => h j (by simp [hj])]
  simp only [foldBranches, rewriteBlocks, List.filter_true]
  refine List.map_congr_left fun b hb => ?_
  obtain ⟨body, t, he, -, hbody⟩ := S.closed b hb
  cases hf : foldBranch? t <;>
    simp [foldBlockBranch?, Block.rewrite, he, hf, hmap body hbody, jumpOr]
  rw [← he]

theorem regular_foldBranches (S : Sound n bs) : Regular n bs (fun _ => true) jumpOr where
  entry _ _ := rfl
  successor _ _ _ _ _ _ := rfl
  terminator := by simp [jumpOr]
  instr i hi i' h := by
    have hfits := S.fits i hi
    cases hf : foldBranch? i with
    | none =>
      obtain rfl : i = i' := by simpa [jumpOr, hf] using h
      exact ⟨rfl, rfl, fun _ h => h, hfits⟩
    | some j =>
      obtain rfl : j = i' := by simpa [jumpOr, hf] using h
      obtain ⟨ho, x, xs, c, t, ha, hc, ht, rfl⟩ := foldBranch?_eq_some hf
      have ht := List.mem_of_getElem? ht
      have hterm : i.isTerminator = true := by simp [Instr.isTerminator, ho, Opcode.isTerminator]
      refine ⟨rfl, ?_, by simpa using ht, ?_⟩
      · simp [Instr.isTerminator, ho, Opcode.isTerminator]
      · exact
          { targets := by simpa using hfits.targets t ht
            inner := by simp [Instr.isTerminator, Opcode.isTerminator]
            br := by simp
            condBr := by simp
            operands := by simp
            known := by simp
            register := hfits.register
            numeric := by simp [Opcode.isNumeric]
            terminator := fun _ => hfits.terminator hterm }
  uses i hi i' h r hr _ := by
    refine ⟨?_, by simp [jumpOr]⟩
    cases hf : foldBranch? i with
    | none =>
      obtain rfl : i = i' := by simpa [jumpOr, hf] using h
      exact hr
    | some j =>
      obtain rfl : j = i' := by simpa [jumpOr, hf] using h
      obtain ⟨-, x, xs, c, t, -, -, -, rfl⟩ := foldBranch?_eq_some hf
      simp [Instr.uses] at hr

theorem rewriting_foldBranches (S : Sound n bs) :
    Rewriting n bs (fun _ => true) jumpOr fun _ _ => True where
  toRegular := regular_foldBranches S
  start _ := trivial
  dropped := by simp [jumpOr]
  recorded _ _ _ _ _ _ _ _ _ := trivial
  kept ds i rest i' hp h fr fr' _ ha globals := by
    cases hf : foldBranch? i with
    | none =>
      obtain rfl : i = i' := by simpa [jumpOr, hf] using h
      exact Instr.effect_congr ha.slots (fun x hx => ha.operand?_eq S hp hx (by simp [jumpOr]))
        globals
    | some j =>
      obtain rfl : j = i' := by simpa [jumpOr, hf] using h
      exact effect_foldBranch hf fr fr' globals

theorem preserves_foldBranches (S : Sound n bs) : Preserves n bs (foldBranches bs).2 := by
  rw [foldBranches_eq S]
  exact (rewriting_foldBranches S).preserves S

def allTargets (bs : List Block) : List BlockRef := bs.flatMap fun b => b.successors.filterMap id

theorem length_allTargets_le (bs : List Block) :
    (allTargets bs).length ≤ (bs.flatMap (·.successors)).length := by
  induction bs with
  | nil => simp [allTargets]
  | cons b bs ih =>
    simp only [allTargets, List.flatMap_cons, List.length_append]
    exact Nat.add_le_add (List.length_filterMap_le _ _) ih

theorem successorsIn_subset (r : BlockRef) : successorsIn bs r ⊆ allTargets bs := by
  intro s hs
  unfold successorsIn at hs
  split at hs
  · rename_i b hb
    exact List.mem_flatMap.mpr ⟨b, List.mem_of_find?_eq_some hb, hs⟩
  · simp at hs

theorem nodup_eraseDups (rs : List BlockRef) : rs.eraseDups.Nodup := by
  match rs with
  | [] => exact List.nodup_nil
  | r :: rs =>
    rw [List.eraseDups_cons, List.nodup_cons]
    exact ⟨by simp [List.mem_eraseDups], nodup_eraseDups _⟩
termination_by rs.length
decreasing_by exact Nat.lt_succ_of_le (List.length_filter_le _ _)

/-- What the walk keeps true: it has seen the successors of each block that it is done with. -/
structure Walk (bs : List Block) (e : BlockRef) (seen work : List BlockRef) : Prop where
  entry : e ∈ seen
  nodup : seen.Nodup
  subset : seen ⊆ e :: allTargets bs
  done : ∀ r ∈ seen, r ∉ work → ∀ s ∈ successorsIn bs r, s ∈ seen

theorem Walk.step {e r : BlockRef} {seen work : List BlockRef} (h : Walk bs e seen (r :: work))
    {new : List BlockRef} (hnew : new = (successorsIn bs r).eraseDups.filter (!seen.contains ·)) :
    Walk bs e (seen ++ new) (work ++ new) := by
  have hmem : ∀ s, s ∈ new ↔ s ∈ successorsIn bs r ∧ s ∉ seen := by
    intro s
    simp [hnew, List.mem_filter, List.mem_eraseDups]
  refine ⟨List.mem_append_left _ h.entry, ?_, ?_, ?_⟩
  · refine List.nodup_append.mpr ⟨h.nodup, ?_, ?_⟩
    · rw [hnew]
      exact (nodup_eraseDups _).filter _
    · intro s hs t ht he
      exact ((hmem t).mp ht).2 (he ▸ hs)
  · intro s hs
    rcases List.mem_append.mp hs with hs | hs
    · exact h.subset hs
    · exact List.mem_cons_of_mem _ (successorsIn_subset r ((hmem s).mp hs).1)
  · intro q hq hw s hs
    rcases List.mem_append.mp hq with hq | hq
    · by_cases hqr : q = r
      · subst hqr
        by_cases hseen : s ∈ seen
        · exact List.mem_append_left _ hseen
        · exact List.mem_append_right _ ((hmem s).mpr ⟨hs, hseen⟩)
      · have hq' : q ∉ r :: work := by
          simp only [List.mem_cons, not_or]
          exact ⟨hqr, fun h => hw (List.mem_append_left _ h)⟩
        exact List.mem_append_left _ (h.done q hq hq' s hs)
    · exact (hw (List.mem_append_right _ hq)).elim

theorem Walk.closed {e : BlockRef} {fuel : Nat} {seen work : List BlockRef}
    (h : Walk bs e seen work)
    (hf : (allTargets bs).length + 1 + work.length ≤ fuel + seen.length) :
    Walk bs e (walk bs fuel seen work) [] := by
  induction fuel generalizing seen work with
  | zero =>
    have hle : seen.length ≤ (allTargets bs).length + 1 :=
      (List.subperm_of_subset h.nodup h.subset).length_le
    obtain rfl : work = [] := List.eq_nil_of_length_eq_zero (by omega)
    exact h
  | succ fuel ih =>
    cases work with
    | nil => exact h
    | cons r work =>
      rw [walk]
      refine ih (h.step rfl) ?_
      simp only [List.length_append, List.length_cons] at hf ⊢
      omega

theorem walk_reachable {b : Block} (hb : bs.head? = some b) : Walk bs b.ref (reachable bs) [] := by
  cases bs with
  | nil => simp at hb
  | cons c bs =>
    obtain rfl : c = b := by simpa using hb
    refine Walk.closed ⟨by simp, by simp, by simp, by simp⟩ ?_
    have := length_allTargets_le (c :: bs)
    simp only [List.length_cons, List.length_nil]
    omega

theorem rewriting_removeUnreachable (S : Sound n bs) :
    Rewriting n bs (fun b => (reachable bs).contains b.ref) some fun _ _ => True := by
  refine .of_keep S (fun b hb => by simpa using (walk_reachable hb).entry) ?_
  intro b hb hk c hc hs
  obtain ⟨e, he⟩ : ∃ e, bs.head? = some e :=
    Option.ne_none_iff_exists'.mp (by simpa using S.nonempty)
  have hin : c.ref ∈ successorsIn bs b.ref := by
    rw [successorsIn, S.find?_of_mem hb]
    simpa using hs
  simpa using (walk_reachable he).done b.ref (by simpa using hk) (by simp) c.ref hin

theorem removeUnreachable_eq (bs : List Block) :
    (removeUnreachable bs).2 = rewriteBlocks (fun b => (reachable bs).contains b.ref) some bs :=
  (rewriteBlocks_some ..).symm

theorem preserves_removeUnreachable (S : Sound n bs) : Preserves n bs (removeUnreachable bs).2 := by
  rw [removeUnreachable_eq]
  exact (rewriting_removeUnreachable S).preserves S

end RealScript.Optimize
