import Mathlib
import RealScript.Code.Optimize

/-! # What optimising leaves alone

Optimising a function changes its blocks only, and a function that has a body keeps one: the first
block can be reached and is never merged into another one.
-/

namespace RealScript

namespace Optimize

theorem subset_walk (bs : List Block) (fuel : Nat) (seen work : List BlockRef) :
    seen ⊆ walk bs fuel seen work := by
  induction fuel generalizing seen work with
  | zero => exact List.Subset.refl _
  | succ fuel ih =>
    cases work with
    | nil => exact List.Subset.refl _
    | cons r work => exact List.Subset.trans (List.subset_append_left _ _) (ih _ _)

theorem length_foldBlocks (known : Known) (bs : List Block) :
    (foldBlocks known bs).2.length = bs.length := by
  induction bs generalizing known with
  | nil => rfl
  | cons b bs ih => simp [foldBlocks, ih]

theorem length_foldConstants (bs : List Block) : (foldConstants bs).2.length = bs.length := by
  simp [foldConstants, length_foldBlocks]

theorem length_foldBranches (bs : List Block) : (foldBranches bs).2.length = bs.length := by
  simp [foldBranches]

theorem removeUnreachable_ne_nil {bs : List Block} (h : bs ≠ []) :
    (removeUnreachable bs).2 ≠ [] := by
  obtain ⟨b, bs, rfl⟩ := List.exists_cons_of_ne_nil h
  have hseen : b.ref ∈ reachable (b :: bs) := subset_walk (b :: bs) _ _ _ List.mem_cons_self
  exact List.ne_nil_of_mem (a := b) (List.mem_filter.mpr ⟨List.mem_cons_self, by simpa using hseen⟩)

theorem head?_of_mergeable? {bs : List Block} {b next : Block} (h : mergeable? bs b = some next) :
    bs.head?.map Block.ref ≠ some next.ref := by
  simp only [mergeable?, Option.bind_eq_bind, Option.bind_eq_some_iff] at h
  obtain ⟨t, -, ⟨⟩, -, r?, -, r, -, ⟨⟩, hguard, hfind⟩ := h
  obtain rfl : next.ref = r := by simpa using List.find?_some hfind
  simp only [guard] at hguard
  split at hguard
  · rename_i hcond
    simp only [Bool.and_eq_true, bne_iff_ne] at hcond
    exact hcond.1.2
  · cases hguard

theorem mergeOnce?_ne_nil {bs bs' : List Block} (h : mergeOnce? bs = some bs') : bs' ≠ [] := by
  simp only [mergeOnce?, Option.bind_eq_bind, Option.bind_eq_some_iff, Option.pure_def] at h
  obtain ⟨⟨b, next⟩, hfind, heq⟩ := h
  cases heq
  obtain ⟨c, hc, hmap⟩ := List.exists_of_findSome?_eq_some hfind
  obtain ⟨_, hmerge, hpair⟩ := Option.map_eq_some_iff.mp hmap
  cases hpair
  obtain ⟨first, rest, rfl⟩ := List.exists_cons_of_ne_nil (List.ne_nil_of_mem hc)
  have hfirst : first.ref ≠ _ := fun he => head?_of_mergeable? hmerge (congrArg some he)
  refine List.ne_nil_of_mem (List.mem_filter.mpr ⟨List.mem_map_of_mem List.mem_cons_self, ?_⟩)
  split
  · rename_i he
    rw [beq_iff_eq.mp he] at hfirst
    simpa [absorb] using hfirst
  · simpa using hfirst

theorem mergeBlocks_ne_nil (fuel : Nat) {bs : List Block} (h : bs ≠ []) :
    (mergeBlocks fuel bs).2 ≠ [] := by
  induction fuel generalizing bs with
  | zero => exact h
  | succ fuel ih =>
    unfold mergeBlocks
    split
    · exact h
    · exact ih (mergeOnce?_ne_nil ‹_›)

theorem length_removeDead (fuel : Nat) (bs : List Block) :
    (removeDead fuel bs).2.length = bs.length := by
  induction fuel generalizing bs with
  | zero => rfl
  | succ fuel ih =>
    unfold removeDead
    dsimp only
    split
    · rfl
    · rw [ih]
      simp [dropUnused]

theorem round_ne_nil {bs : List Block} (h : bs ≠ []) : (round bs).2 ≠ [] := by
  have hfolded : (foldBranches (foldConstants bs).2).2 ≠ [] := by
    rw [← List.length_pos_iff, length_foldBranches, length_foldConstants]
    exact List.length_pos_iff.mpr h
  unfold round
  rw [← List.length_pos_iff, length_removeDead]
  exact List.length_pos_iff.mpr (mergeBlocks_ne_nil _ (removeUnreachable_ne_nil hfolded))

theorem rounds_ne_nil (fuel : Nat) (total : Stats) {bs : List Block} (h : bs ≠ []) :
    (rounds fuel total bs).2 ≠ [] := by
  induction fuel generalizing total bs with
  | zero => exact h
  | succ fuel ih =>
    unfold rounds
    dsimp only
    split
    · exact round_ne_nil h
    · exact ih _ (round_ne_nil h)

end Optimize

namespace Function

variable (f : Function)

theorem hasBody_optimize : f.optimize.2.hasBody = f.hasBody := by
  unfold optimize
  split
  · rfl
  · rename_i h
    have hb : f.hasBody = true := by simp_all
    have hne : f.blocks ≠ [] := by simpa [hasBody] using hb
    rw [hb]
    simpa [hasBody] using Optimize.rounds_ne_nil _ _ hne

@[simp] theorem ref_optimize : f.optimize.2.ref = f.ref := by
  unfold optimize
  split <;> rfl

@[simp] theorem native_optimize : f.optimize.2.native = f.native := by
  unfold optimize
  split <;> rfl

@[simp] theorem slots_optimize : f.optimize.2.slots = f.slots := by
  unfold optimize
  split <;> rfl

@[simp] theorem listed_optimize : f.optimize.2.listed = f.listed := by
  unfold optimize
  split <;> rfl

end Function

end RealScript
