import RealScript.Code.Optimize
import RealScript.Proofs.Machine.Effect

/-! # Paths through code

A path leads from the first block of a function to another one along the ends of blocks. Code is
sound if its blocks end as they should, each result has a register of its own, and every path to a
use of a register passes a definition of it.
-/

namespace RealScript

def code (bs : List Block) : List Instr := bs.flatMap Block.instrs

theorem mem_code {bs : List Block} {i : Instr} : i ∈ code bs ↔ ∃ b ∈ bs, i ∈ b.instrs := by
  simp [code]

/-- A path from the first block, with the results of the blocks that it leaves behind. -/
inductive Path (bs : List Block) : List ResultRef → Block → Prop where
  | entry {b : Block} : bs.head? = some b → Path bs [] b
  | step {ds : List ResultRef} {b c : Block} : Path bs ds b → some c.ref ∈ b.successors → c ∈ bs →
      Path bs (ds ++ b.instrs.map (·.ref)) c

def DefinesBeforeUse (bs : List Block) : Prop :=
  ∀ ds b, Path bs ds b → ∀ pre i post, b.instrs = pre ++ i :: post → ∀ r ∈ i.uses,
    r.register ≠ none → r ∈ ds ++ pre.map (·.ref)

structure Instr.Fits (n : Nat) (labels : List BlockRef) (i : Instr) : Prop where
  targets : ∀ t ∈ i.targets, ∃ r ∈ labels, t = some r
  inner : i.isTerminator = false → i.targets = []
  br : i.op = .br → ∃ t, i.targets = [t]
  condBr : i.op = .condBr → ∃ yes no, i.targets = [yes, no]
  operands : ∀ x ∈ i.args, x ≠ .hole
  known : ∀ k, i.op ≠ .unknown k
  register : ∀ k, i.ref.register = some k → k < n
  numeric : i.op.isNumeric = true → i.ref.register ≠ none
  terminator : i.isTerminator = true → i.ref.register = none

def Block.Closed (b : Block) : Prop :=
  ∃ body t, b.instrs = body ++ [t] ∧ t.isTerminator = true ∧ ∀ i ∈ body, i.isTerminator = false

structure Instr.Aims (labels : List BlockRef) (i : Instr) : Prop where
  targets : ∀ t ∈ i.targets, ∃ r ∈ labels, t = some r
  inner : i.isTerminator = false → i.targets = []
  br : i.op = .br → ∃ t, i.targets = [t]
  condBr : i.op = .condBr → ∃ yes no, i.targets = [yes, no]

structure Wired (bs : List Block) : Prop where
  nonempty : bs ≠ []
  labels : (bs.map (·.ref)).Nodup
  closed : ∀ b ∈ bs, b.Closed
  aims : ∀ i ∈ code bs, i.Aims (bs.map (·.ref))

structure Sound (n : Nat) (bs : List Block) : Prop where
  nonempty : bs ≠ []
  labels : (bs.map (·.ref)).Nodup
  closed : ∀ b ∈ bs, b.Closed
  fits : ∀ i ∈ code bs, i.Fits n (bs.map (·.ref))
  results : ((code bs).map (·.ref)).Nodup
  registers : ((code bs).filterMap (·.ref.register)).Nodup
  uses : DefinesBeforeUse bs

namespace Block

theorem successors_eq {b : Block} {body : List Instr} {t : Instr} (h : b.instrs = body ++ [t])
    (ht : t.isTerminator = true) : b.successors = t.targets := by
  simp [successors, terminator?, h, ht, Option.filter]

theorem Closed.isTerminator_iff {b : Block} (h : b.Closed) {pre rest : List Instr} {i : Instr}
    (hb : b.instrs = pre ++ i :: rest) : i.isTerminator = true ↔ rest = [] := by
  obtain ⟨body, t, he, ht, hbody⟩ := h
  rw [he] at hb
  rcases List.eq_nil_or_concat rest with rfl | ⟨rest, u, rfl⟩
  · obtain ⟨-, ho⟩ := List.append_inj' hb rfl
    simpa using (List.cons.inj ho).1 ▸ ht
  · rw [List.concat_eq_append, ← List.cons_append, ← List.append_assoc] at hb
    obtain ⟨rfl, -⟩ := List.append_inj' hb rfl
    simp [hbody i (by simp)]

theorem Closed.ne_nil {b : Block} (h : b.Closed) : b.instrs ≠ [] := by
  obtain ⟨body, t, he, -, -⟩ := h
  simp [he]

end Block

theorem Path.mem {bs : List Block} {ds : List ResultRef} {b : Block} (h : Path bs ds b) :
    b ∈ bs := by
  cases h with
  | entry h => exact List.mem_of_mem_head? h
  | step _ _ h => exact h

theorem Path.mem_results {bs : List Block} {ds : List ResultRef} {b : Block} (h : Path bs ds b)
    {r : ResultRef} (hr : r ∈ ds) : ∃ i ∈ code bs, i.ref = r := by
  induction h with
  | entry => simp at hr
  | step hp _ _ ih =>
    rcases List.mem_append.mp hr with hr | hr
    · exact ih hr
    · obtain ⟨i, hi, rfl⟩ := List.mem_map.mp hr
      exact ⟨i, mem_code.mpr ⟨_, hp.mem, hi⟩, rfl⟩

/-- Where an activation may stand: the results so far, the instructions to come, and the block that
comes next when there are none. -/
inductive Standing (bs : List Block) : List ResultRef → List Instr → Option BlockRef → Prop where
  | inside {ds : List ResultRef} {b : Block} {pre rest : List Instr} {i : Instr} :
      Path bs ds b → b.instrs = pre ++ i :: rest →
      Standing bs (ds ++ pre.map (·.ref)) (i :: rest) none
  | leaving {ds : List ResultRef} {b : Block} {r : BlockRef} : Path bs ds b →
      some r ∈ b.successors → Standing bs (ds ++ b.instrs.map (·.ref)) [] (some r)

theorem Optimize.find?_eq_some {bs : List Block} (h : (bs.map (·.ref)).Nodup) {b : Block}
    (hb : b ∈ bs) : Optimize.find? bs b.ref = some b := by
  unfold Optimize.find?
  cases hf : bs.find? (·.ref == b.ref) with
  | none => simpa using List.find?_eq_none.mp hf b hb
  | some c =>
    have hc : c.ref = b.ref := by simpa using List.find?_some hf
    rw [List.inj_on_of_nodup_map h (List.mem_of_find?_eq_some hf) hb hc]

theorem ref_eq_of_register_eq {bs : List Block} (hn : ((code bs).filterMap (·.ref.register)).Nodup)
    {i j : Instr} (hi : i ∈ code bs) (hj : j ∈ code bs) (hr : i.ref.register ≠ none)
    (h : i.ref.register = j.ref.register) : i.ref = j.ref := by
  obtain ⟨k, hk⟩ := Option.ne_none_iff_exists'.mp hr
  by_contra hne
  have hp := List.pairwise_filterMap.mp hn
  have : Std.Symm fun a b : Instr =>
      ∀ x, a.ref.register = some x → ∀ y, b.ref.register = some y → x ≠ y :=
    ⟨fun a b hab x hx y hy he => hab y hy x hx he.symm⟩
  exact hp.forall hi hj (fun he => hne (he ▸ rfl)) k hk k (h ▸ hk) rfl

namespace Sound

variable {n : Nat} {bs : List Block}

section

variable (S : Sound n bs)

include S

theorem wired : Wired bs := ⟨S.nonempty, S.labels, S.closed, fun i hi =>
    let h := S.fits i hi
    ⟨h.targets, h.inner, h.br, h.condBr⟩⟩

theorem eq_of_ref_eq {i j : Instr} (hi : i ∈ code bs) (hj : j ∈ code bs)
    (h : i.ref = j.ref) : i = j :=
  List.inj_on_of_nodup_map S.results hi hj h

theorem ref_eq_of_register_eq {i j : Instr} (hi : i ∈ code bs) (hj : j ∈ code bs)
    (hr : i.ref.register ≠ none) (h : i.ref.register = j.ref.register) : i.ref = j.ref :=
  RealScript.ref_eq_of_register_eq S.registers hi hj hr h

theorem find?_of_mem {b : Block} (hb : b ∈ bs) :
    Optimize.find? bs b.ref = some b := Optimize.find?_eq_some S.labels hb

theorem jump {b : Block} (hb : b ∈ bs) {pre rest : List Instr} {i : Instr}
    (he : b.instrs = pre ++ i :: rest) {fr : Frame} {globals : Array Value} {t : Option BlockRef}
    (ht : i.effect fr globals = .jump t) : rest = [] ∧ ∃ r, t = some r ∧ some r ∈ b.successors := by
  have hfits := S.fits i (mem_code.mpr ⟨b, hb, by simp [he]⟩)
  have hmem : i.isTerminator = true ∧ t ∈ i.targets := by
    rcases i.target_of_jump ht with ⟨ho, rfl⟩ | ⟨ho, k, hk, rfl⟩
    · obtain ⟨t, he⟩ := hfits.br ho
      exact ⟨by simp [Instr.isTerminator, ho, Opcode.isTerminator], by simp [he]⟩
    · obtain ⟨yes, no, he⟩ := hfits.condBr ho
      refine ⟨by simp [Instr.isTerminator, ho, Opcode.isTerminator], ?_⟩
      rcases Nat.lt_succ_iff_lt_or_eq.mp hk with hk | rfl
      · obtain rfl : k = 0 := by omega
        simp [he]
      · simp [he]
  obtain rfl := ((S.closed b hb).isTerminator_iff he).mp hmem.1
  obtain ⟨r, -, rfl⟩ := hfits.targets t hmem.2
  exact ⟨rfl, r, rfl, by rw [Block.successors_eq he hmem.1]; exact hmem.2⟩

theorem mem_of_successor {b : Block} (hb : b ∈ bs) {r : BlockRef}
    (hr : some r ∈ b.successors) : ∃ c ∈ bs, c.ref = r := by
  obtain ⟨body, t, he, ht, -⟩ := S.closed b hb
  rw [Block.successors_eq he ht] at hr
  obtain ⟨r', hr', heq⟩ := (S.fits t (mem_code.mpr ⟨b, hb, by simp [he]⟩)).targets _ hr
  obtain ⟨c, hc, rfl⟩ := List.mem_map.mp hr'
  exact ⟨c, hc, (Option.some.inj heq).symm⟩

end

end Sound

namespace Standing

variable {n : Nat} {bs : List Block} {ds : List ResultRef} {i : Instr} {rest : List Instr}

theorem start {b : Block} (S : Sound n bs) (h : bs.head? = some b) :
    Standing bs [] b.instrs none := by
  have hp := Path.entry h
  obtain ⟨i, rest, he⟩ := List.exists_cons_of_ne_nil (S.closed b hp.mem).ne_nil
  rw [he]
  have := inside hp (show b.instrs = [] ++ i :: rest from he)
  simpa using this

theorem mem_code (h : Standing bs ds (i :: rest) none) : i ∈ code bs := by
  cases h with
  | inside hp he => exact RealScript.mem_code.mpr ⟨_, hp.mem, by simp [he]⟩

theorem mem_results {next : Option BlockRef} (h : Standing bs ds rest next) {r : ResultRef}
    (hr : r ∈ ds) : ∃ i ∈ code bs, i.ref = r := by
  have hsub : ∀ b : Block, b ∈ bs → r ∈ b.instrs.map (·.ref) → ∃ i ∈ code bs, i.ref = r := by
    intro b hb hr
    obtain ⟨i, hi, rfl⟩ := List.mem_map.mp hr
    exact ⟨i, RealScript.mem_code.mpr ⟨b, hb, hi⟩, rfl⟩
  cases h with
  | inside hp he =>
    rcases List.mem_append.mp hr with hr | hr
    · exact hp.mem_results hr
    · exact hsub _ hp.mem (by simp only [he, List.map_append]; exact List.mem_append_left _ hr)
  | leaving hp _ =>
    rcases List.mem_append.mp hr with hr | hr
    · exact hp.mem_results hr
    · exact hsub _ hp.mem hr

theorem advance (S : Sound n bs) (h : Standing bs ds (i :: rest) none)
    (hi : i.isTerminator = false) : Standing bs (ds ++ [i.ref]) rest none := by
  cases h with
  | @inside ds b pre _ _ hp he =>
    have hne : rest ≠ [] := by
      intro hn
      simp [((S.closed b hp.mem).isTerminator_iff he).mpr hn] at hi
    obtain ⟨j, rest, rfl⟩ := List.exists_cons_of_ne_nil hne
    have := inside hp (show b.instrs = (pre ++ [i]) ++ j :: rest by simpa using he)
    simpa using this

theorem jump (S : Sound n bs) (h : Standing bs ds (i :: rest) none) {fr : Frame}
    {globals : Array Value} {t : Option BlockRef} (ht : i.effect fr globals = .jump t) :
    rest = [] ∧ ∃ r, t = some r ∧ Standing bs (ds ++ [i.ref]) [] (some r) := by
  cases h with
  | inside hp he =>
    obtain ⟨rfl, r, rfl, hs⟩ := S.jump hp.mem he ht
    have := leaving hp hs
    rw [he, List.map_append, ← List.append_assoc] at this
    exact ⟨rfl, r, rfl, this⟩

theorem enter (S : Sound n bs) {r : BlockRef} (h : Standing bs ds [] (some r)) :
    ∃ b, b.ref = r ∧ Path bs ds b ∧ Optimize.find? bs r = some b ∧
    Standing bs ds b.instrs none := by
  cases h with
  | leaving hp hs =>
    obtain ⟨c, hc, rfl⟩ := S.mem_of_successor hp.mem hs
    have hp' := hp.step hs hc
    refine ⟨c, rfl, hp', S.find?_of_mem hc, ?_⟩
    obtain ⟨j, rest, hj⟩ := List.exists_cons_of_ne_nil (S.closed c hc).ne_nil
    rw [hj]
    have := inside hp' (show c.instrs = [] ++ j :: rest from hj)
    simpa using this

theorem defined (S : Sound n bs) (h : Standing bs ds (i :: rest) none) {r : ResultRef}
    (hr : r ∈ i.uses) (hn : r.register ≠ none) : r ∈ ds := by
  cases h with
  | inside hp he => exact S.uses _ _ hp _ _ _ he r hr hn

end Standing

end RealScript
