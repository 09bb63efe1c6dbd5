import RealScript.Code.Builder
import RealScript.Code.Listing
import RealScript.Proofs.Lowering.Numbers

/-! # The names of blocks

A block is named as it was asked for, with a number behind if the name was asked for before.
Numbered names are never the same for two names or two numbers. But a block may be asked for with a
name that another one got by its number, and then a branch does not say which of the two it goes to.
-/

namespace RealScript

/-- The name of a block, when blocks were asked for so many times with that name before. -/
def blockLabel (name : String) (used : Nat) : String :=
  if used = 0 then name else name ++ "." ++ toString used

theorem point_not_mem_toString (n : Nat) : '.' ∉ (toString n).toList := by
  rw [Nat.toString_eq_ofList_toDigits, String.toList_ofList]
  intro h
  exact absurd (Nat.isDigit_of_mem_toDigits (by decide) (by decide) h) (by decide)

theorem numbered_inj {x y : String} {m n : Nat}
    (h : x ++ "." ++ toString m = y ++ "." ++ toString n) : x = y ∧ m = n := by
  have h := congrArg (fun s : String => s.toList.reverse) h
  simp only [String.toList_append, List.reverse_append] at h
  have hdigits (k : Nat) (rest : List Char) :
      ((toString k).toList.reverse ++ (".".toList.reverse ++ rest)).takeWhile (· != '.') =
        (toString k).toList.reverse := by
    rw [List.takeWhile_append_of_pos]
    · simp
    · intro c hc
      have : c ≠ '.' := fun he => point_not_mem_toString k (he ▸ List.mem_reverse.mp hc)
      simpa using this
  have hnumber := congrArg (List.takeWhile (· != '.')) h
  rw [hdigits, hdigits, List.reverse_inj] at hnumber
  obtain rfl := toString_nat_injective (String.toList_injective hnumber)
  rw [List.append_cancel_left_eq, List.append_cancel_left_eq, List.reverse_inj] at h
  exact ⟨String.toList_injective h, rfl⟩

def occurrences (before : List String) : List String → List (String × Nat)
  | [] => []
  | name :: rest => (name, before.count name) :: occurrences (name :: before) rest

theorem mem_occurrences {before asked : List String} {x : String × Nat} :
    x ∈ occurrences before asked ↔
      before.count x.1 ≤ x.2 ∧ x.2 < before.count x.1 + asked.count x.1 := by
  induction asked generalizing before with
  | nil => simp [occurrences]
  | cons name rest ih =>
    obtain ⟨y, k⟩ := x
    rw [occurrences, List.mem_cons, ih, Prod.mk.injEq, List.count_cons, List.count_cons]
    by_cases hy : y = name
    · subst hy
      simp
      omega
    · have hname : ¬ name = y := fun h => hy h.symm
      simp [hy, hname]

theorem nodup_occurrences (before asked : List String) : (occurrences before asked).Nodup := by
  induction asked generalizing before with
  | nil => exact List.nodup_nil
  | cons name rest ih =>
    refine List.nodup_cons.mpr ⟨fun h => ?_, ih _⟩
    have := (mem_occurrences.mp h).1
    simp only [List.count_cons_self] at this
    omega

def Unambiguous (asked : List String) : Prop :=
  ∀ name k, 0 < k → k < asked.count name → blockLabel name k ∉ asked

theorem nodup_labels_iff (asked : List String) :
    ((occurrences [] asked).map fun x => blockLabel x.1 x.2).Nodup ↔ Unambiguous asked := by
  rw [List.nodup_map_iff_inj_on (nodup_occurrences [] asked)]
  have hmem (x : String × Nat) : x ∈ occurrences [] asked ↔ x.2 < asked.count x.1 := by
    simp [mem_occurrences]
  constructor
  · intro hinj name k hk hlt hasked
    have hfirst : (blockLabel name k, 0) ∈ occurrences [] asked :=
      (hmem _).mpr (List.count_pos_iff.mpr hasked)
    have he := hinj _ hfirst _ ((hmem (name, k)).mpr hlt) rfl
    have := (Prod.mk.inj he).2
    omega
  · rintro hun ⟨x, j⟩ hx ⟨y, k⟩ hy he
    have hjx : j < asked.count x := (hmem _).mp hx
    have hky : k < asked.count y := (hmem _).mp hy
    rcases Nat.eq_zero_or_pos j with rfl | hj <;> rcases Nat.eq_zero_or_pos k with rfl | hk
    · exact congrArg (·, 0) he
    · have hxy : x = blockLabel y k := he
      exact absurd (hxy ▸ List.count_pos_iff.mp hjx) (hun y k hk hky)
    · have hyx : blockLabel x j = y := he
      exact absurd (hyx ▸ List.count_pos_iff.mp hky) (hun x j hj hjx)
    · simp only [blockLabel, Nat.ne_of_gt hj, Nat.ne_of_gt hk, if_false] at he
      obtain ⟨rfl, rfl⟩ := numbered_inj he
      rfl

namespace Function

open Stateful

def addBlocks (f : Function) (asked : List String) : Function :=
  asked.foldl (fun f name => (f.addBlock name).2) f

theorem addBlocks_append (f : Function) (asked : List String) (name : String) :
    f.addBlocks (asked ++ [name]) = ((f.addBlocks asked).addBlock name).2 := by
  simp [addBlocks]

theorem blockNames_addBlocks (f : Function) (asked : List String) :
    (f.addBlocks asked).blocks.map (·.ref.name) = f.blocks.map
      (·.ref.name) ++ (occurrences f.labels asked).map fun x => blockLabel x.1 x.2 := by
  induction asked generalizing f with
  | nil => simp [addBlocks, occurrences]
  | cons name rest ih =>
    have h := ih (f.addBlock name).2
    simpa [addBlocks, occurrences, addBlock, blockLabel] using h

theorem ref_addBlocks (f : Function) (asked : List String) : (f.addBlocks asked).ref = f.ref := by
  induction asked generalizing f with
  | nil => rfl
  | cons name rest ih => exact ih _

theorem blockIndices_addBlocks (f : Function) (asked : List String) :
    (f.addBlocks asked).blocks.map (·.ref.index) =
      f.blocks.map (·.ref.index) ++ List.range' f.labels.length asked.length := by
  induction asked generalizing f with
  | nil => simp [addBlocks]
  | cons name rest ih =>
    have h := ih (f.addBlock name).2
    simpa [addBlocks, addBlock, List.range'_succ] using h

theorem nodup_addBlocks {f : Function} (h : f.blocks = []) (asked : List String) :
    (f.addBlocks asked).blocks.Nodup := by
  refine List.Nodup.of_map (·.ref.index) ?_
  rw [blockIndices_addBlocks, h]
  exact List.nodup_range'

theorem listing_br (r : BlockRef) : (Draft.br (some r)).listing = "br " ++ r.name := rfl

/-- Blocks have different names exactly if no block is asked for with a name that another one gets
by its number, and just then a branch to a block, as it is listed, fits that block only. A builder
names blocks in the same way. -/
theorem blockNames_nodup_iff {f : Function} (hblocks : f.blocks = []) (hlabels : f.labels = [])
    (asked : List String) :
    (((f.addBlocks asked).blocks.map (·.ref.name)).Nodup ↔ Unambiguous asked) ∧
    ((∀ b ∈ (f.addBlocks asked).blocks, ∃! c, c ∈ (f.addBlocks asked).blocks ∧
        (Draft.br (some b.ref)).listing = "br " ++ c.ref.name) ↔ Unambiguous asked) ∧
    ∀ b : Builder, b.function? = some (f.addBlocks asked) → ∀ name, ∃ r,
      Build.createBlock name b = .ok r { b with
        module := b.module.modify f.id fun _ => f.addBlocks (asked ++ [name]) } := by
  have hnames : ((f.addBlocks asked).blocks.map (·.ref.name)).Nodup ↔ Unambiguous asked := by
    rw [blockNames_addBlocks, hblocks, hlabels]
    exact nodup_labels_iff asked
  refine ⟨hnames, ?_, fun b hb name => ⟨((f.addBlocks asked).addBlock name).1, ?_⟩⟩
  · rw [← hnames, List.nodup_map_iff_inj_on (nodup_addBlocks hblocks asked)]
    constructor
    · intro hone b hb c hc he
      exact (hone b hb).unique ⟨hb, listing_br b.ref⟩ ⟨hc, by rw [listing_br, he]⟩
    · intro hinj b hb
      refine ⟨b, ⟨hb, listing_br b.ref⟩, fun c ⟨hc, he⟩ => hinj c hc b hb ?_⟩
      rw [listing_br] at he
      exact (String.append_right_inj "br ").mp he.symm
  · have hid : (f.addBlocks asked).id = f.id := congrArg FuncRef.id (ref_addBlocks f asked)
    simp only [Build.createBlock, bind_run, get_run, hb, set_run, pure_run, addBlocks_append, ← hid]
    rfl

def bare (name : String) : Function := { ref := ⟨0, name, [], .real⟩, paramNames := [] }

theorem blockNames_nodup_iff_loops : ((bare "f").blocks = [] ∧ (bare "f").labels = []) ∧
    Unambiguous ["loop", "loop", "loop", "after", "loop.3"] :=
  ⟨⟨rfl, rfl⟩, (blockNames_nodup_iff (f := bare "f") rfl rfl _).1.mp (by decide +kernel)⟩

/-- The second block that is asked for as `a` is named `a.1`, and so is one that is asked for with
that name. -/
theorem blockNames_clash :
    ¬ (((bare "f").addBlocks ["a", "a", "a.1"]).blocks.map (·.ref.name)).Nodup := by
  decide +kernel

end Function

end RealScript
