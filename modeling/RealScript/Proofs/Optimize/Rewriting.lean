import RealScript.Proofs.Code.Paths

/-! # Rewriting instruction by instruction

A pass that replaces or drops single instructions, and drops blocks that no path leads to, keeps the
meaning of code under local conditions: what is dropped only computes a value that the rewritten
code does not look at, and what is replaced asks for the same as before.
-/

namespace RealScript

def Block.rewrite (τ : Instr → Option Instr) (b : Block) : Block :=
  { b with instrs := b.instrs.filterMap τ }

def rewriteBlocks (keep : Block → Bool) (τ : Instr → Option Instr) (bs : List Block) : List Block :=
  (bs.filter keep).map (·.rewrite τ)

/-- What keeps rewritten code sound: control stays within the blocks that are kept, ends of blocks
remain, and what is still used is not dropped. -/
structure Regular (n : Nat) (bs : List Block) (keep : Block → Bool) (τ : Instr → Option Instr) :
    Prop where
  entry : ∀ b, bs.head? = some b → keep b = true
  successor : ∀ b ∈ bs, keep b = true → ∀ c ∈ bs, some c.ref ∈ b.successors → keep c = true
  terminator : ∀ i ∈ code bs, i.isTerminator = true → τ i ≠ none
  instr : ∀ i ∈ code bs, ∀ i', τ i = some i' → i'.ref = i.ref ∧
    i'.isTerminator = i.isTerminator ∧ (∀ t ∈ i'.targets, t ∈ i.targets) ∧
    i'.Fits n (bs.map (·.ref))
  uses : ∀ i ∈ code bs, ∀ i', τ i = some i' → ∀ r ∈ i'.uses, r.register ≠ none →
    r ∈ i.uses ∧ ∀ j ∈ code bs, j.ref = r → τ j ≠ none

namespace Regular

variable {n : Nat} {bs : List Block} {keep : Block → Bool} {τ : Instr → Option Instr}

theorem closed_rewrite (S : Sound n bs) (h : Regular n bs keep τ) {b : Block} (hb : b ∈ bs) :
    ∃ body t t', b.instrs = body ++ [t] ∧ t.isTerminator = true ∧ τ t = some t' ∧
      (b.rewrite τ).instrs = body.filterMap τ ++ [t'] ∧ t'.isTerminator = true ∧
      (∀ i ∈ body.filterMap τ, i.isTerminator = false) ∧ ∀ x ∈ t'.targets, x ∈ t.targets := by
  obtain ⟨body, t, he, ht, hbody⟩ := S.closed b hb
  have hmem : ∀ i ∈ b.instrs, i ∈ code bs := fun i hi => mem_code.mpr ⟨b, hb, hi⟩
  have htc : t ∈ code bs := hmem t (by simp [he])
  obtain ⟨t', ht'⟩ := Option.ne_none_iff_exists'.mp (h.terminator t htc ht)
  obtain ⟨-, hterm, htargets, -⟩ := h.instr t htc t' ht'
  refine ⟨body, t, t', he, ht, ht', ?_, hterm.trans ht, ?_, htargets⟩
  · simp [Block.rewrite, he, ht']
  · intro i' hi'
    obtain ⟨i, hi, hτ⟩ := List.mem_filterMap.mp hi'
    rw [(h.instr i (hmem i (by simp [he, hi])) i' hτ).2.1, hbody i hi]

theorem successors_rewrite (S : Sound n bs) (h : Regular n bs keep τ) {b : Block} (hb : b ∈ bs)
    {x : Option BlockRef} (hx : x ∈ (b.rewrite τ).successors) : x ∈ b.successors := by
  obtain ⟨body, t, t', he, ht, -, he', ht', -, hsub⟩ := h.closed_rewrite S hb
  rw [Block.successors_eq he' ht'] at hx
  rw [Block.successors_eq he ht]
  exact hsub x hx

theorem keep_of_path (h : Regular n bs keep τ) {ds : List ResultRef} {b : Block}
    (hp : Path bs ds b) : keep b = true := by
  induction hp with
  | entry hb => exact h.entry _ hb
  | step hp hs hc ih => exact h.successor _ hp.mem ih _ hc hs

theorem head?_rewriteBlocks (h : Regular n bs keep τ) {b : Block} (hb : bs.head? = some b) :
    (rewriteBlocks keep τ bs).head? = some (b.rewrite τ) := by
  have hk := h.entry b hb
  cases bs with
  | nil => simp at hb
  | cons c bs =>
    obtain rfl : c = b := by simpa using hb
    simp [rewriteBlocks, hk]

theorem nodup_rewriteBlocks (S : Sound n bs) (keep : Block → Bool) (τ : Instr → Option Instr) :
    ((rewriteBlocks keep τ bs).map (·.ref)).Nodup := by
  have : (rewriteBlocks keep τ bs).map (·.ref) = (bs.filter keep).map (·.ref) := by
    simp [rewriteBlocks, Block.rewrite, Function.comp_def]
  rw [this]
  exact S.labels.sublist (List.filter_sublist.map _)

theorem find?_rewriteBlocks (S : Sound n bs) (h : Regular n bs keep τ) {ds : List ResultRef}
    {b : Block} (hp : Path bs ds b) :
    Optimize.find? (rewriteBlocks keep τ bs) b.ref = some (b.rewrite τ) :=
  Optimize.find?_eq_some (b := b.rewrite τ) (nodup_rewriteBlocks S keep τ)
    (List.mem_map_of_mem (List.mem_filter.mpr ⟨hp.mem, h.keep_of_path hp⟩))

theorem mem_code_rewrite {i' : Instr} (hi : i' ∈ code (rewriteBlocks keep τ bs)) :
    ∃ b ∈ bs, keep b = true ∧ ∃ i ∈ b.instrs, τ i = some i' := by
  obtain ⟨b', hb', hi⟩ := mem_code.mp hi
  obtain ⟨b, hb, rfl⟩ := List.mem_map.mp hb'
  obtain ⟨hb, hk⟩ := List.mem_filter.mp hb
  obtain ⟨i, hi, hτ⟩ := List.mem_filterMap.mp hi
  exact ⟨b, hb, hk, i, hi, hτ⟩

theorem results_rewrite (h : Regular n bs keep τ) :
    ((code (rewriteBlocks keep τ bs)).map (·.ref)).Sublist ((code bs).map (·.ref)) := by
  have hinstrs : ∀ is : List Instr, (∀ i ∈ is, i ∈ code bs) →
      ((is.filterMap τ).map (·.ref)).Sublist (is.map (·.ref)) := by
    intro is
    induction is with
    | nil => simp
    | cons i is ih =>
      intro hmem
      have ih := ih fun j hj => hmem j (by simp [hj])
      cases hτ : τ i with
      | none => rw [List.filterMap_cons_none hτ]; exact ih.cons _
      | some i' =>
        rw [List.filterMap_cons_some hτ, List.map_cons, List.map_cons,
          (h.instr i (hmem i (by simp)) i' hτ).1]
        exact ih.cons_cons _
  have hblocks : ∀ cs : List Block, (∀ b ∈ cs, b ∈ bs) →
      ((code (rewriteBlocks keep τ cs)).map (·.ref)).Sublist ((code cs).map (·.ref)) := by
    intro cs
    induction cs with
    | nil => simp [rewriteBlocks, code]
    | cons b cs ih =>
      intro hmem
      have ih := ih fun c hc => hmem c (by simp [hc])
      have hb := hinstrs b.instrs fun i hi => mem_code.mpr ⟨b, hmem b (by simp), hi⟩
      simp only [code, List.flatMap_cons, List.map_append] at ih ⊢
      cases hk : keep b with
      | false =>
        rw [rewriteBlocks, List.filter_cons_of_neg (by simp [hk])]
        exact ih.trans (List.sublist_append_right _ _)
      | true =>
        rw [rewriteBlocks, List.filter_cons_of_pos hk, List.map_cons, List.flatMap_cons,
          List.map_append]
        exact hb.append ih
  exact hblocks bs fun _ h => h

section

variable (S : Sound n bs) (h : Regular n bs keep τ)

include S h

theorem path_rewrite {ds' : List ResultRef} {b' : Block}
    (hp : Path (rewriteBlocks keep τ bs) ds' b') :
    ∃ ds b, Path bs ds b ∧ b' = b.rewrite τ ∧
      ∀ r ∈ ds, (∀ j ∈ code bs, j.ref = r → τ j ≠ none) → r ∈ ds' := by
  induction hp with
  | entry hb =>
    obtain ⟨b, bs, rfl⟩ := List.exists_cons_of_ne_nil S.nonempty
    rw [h.head?_rewriteBlocks rfl] at hb
    exact ⟨[], b, .entry rfl, (Option.some.inj hb).symm, by simp⟩
  | @step ds' b' c' _ hs hc ih =>
    obtain ⟨ds, b, hp, rfl, hds⟩ := ih
    obtain ⟨c, hc', rfl⟩ := List.mem_map.mp hc
    refine ⟨_, c, .step hp (h.successors_rewrite S hp.mem hs) (List.mem_filter.mp hc').1, rfl, ?_⟩
    intro r hr hkept
    rcases List.mem_append.mp hr with hr | hr
    · exact List.mem_append_left _ (hds r hr hkept)
    · obtain ⟨j, hj, rfl⟩ := List.mem_map.mp hr
      have hjc : j ∈ code bs := mem_code.mpr ⟨b, hp.mem, hj⟩
      obtain ⟨j', hτ⟩ := Option.ne_none_iff_exists'.mp (hkept j hjc rfl)
      refine List.mem_append_right _ (List.mem_map.mpr ⟨j', ?_, (h.instr j hjc j' hτ).1⟩)
      exact List.mem_filterMap.mpr ⟨j, hj, hτ⟩

theorem reflect {ds' : List ResultRef} {b' : Block}
    (hp' : Path (rewriteBlocks keep τ bs) ds' b') {pre' post' : List Instr} {i' : Instr}
    (he : b'.instrs = pre' ++ i' :: post') :
    ∃ ds b pre i post, Path bs ds b ∧ b.instrs = pre ++ i :: post ∧ τ i = some i' ∧
      ∀ r ∈ ds ++ pre.map (·.ref), (∀ j ∈ code bs, j.ref = r → τ j ≠ none) →
        r ∈ ds' ++ pre'.map (·.ref) := by
  obtain ⟨ds, b, hp, rfl, hds⟩ := h.path_rewrite S hp'
  obtain ⟨pre, rest, hb, rfl, hrest⟩ := List.filterMap_eq_append_iff.mp he
  obtain ⟨skipped, i, post, rfl, hskip, hτ, -⟩ := List.filterMap_eq_cons_iff.mp hrest
  refine ⟨ds, b, pre ++ skipped, i, post, hp, by simpa using hb, hτ, fun r hr hkept => ?_⟩
  rcases List.mem_append.mp hr with hr | hr
  · exact List.mem_append_left _ (hds r hr hkept)
  · obtain ⟨j, hj, rfl⟩ := List.mem_map.mp hr
    have hjc : j ∈ code bs := mem_code.mpr ⟨b, hp.mem, by
      rw [hb]
      simp only [List.mem_append] at hj ⊢
      tauto⟩
    obtain ⟨j', hτj⟩ := Option.ne_none_iff_exists'.mp (hkept j hjc rfl)
    rcases List.mem_append.mp hj with hj | hj
    · refine List.mem_append_right _ (List.mem_map.mpr ⟨j', ?_, (h.instr j hjc j' hτj).1⟩)
      exact List.mem_filterMap.mpr ⟨j, hj, hτj⟩
    · rw [hskip j hj] at hτj
      cases hτj

theorem sound : Sound n (rewriteBlocks keep τ bs) where
  nonempty := by
    obtain ⟨b, bs, rfl⟩ := List.exists_cons_of_ne_nil S.nonempty
    intro hn
    have := h.head?_rewriteBlocks (b := b) rfl
    simp [hn] at this
  labels := nodup_rewriteBlocks S keep τ
  closed b' hb' := by
    obtain ⟨b, hb, rfl⟩ := List.mem_map.mp hb'
    obtain ⟨body, t, t', -, -, -, he', ht', hbody, -⟩ :=
      h.closed_rewrite S (List.mem_filter.mp hb).1
    exact ⟨_, t', he', ht', hbody⟩
  fits i' hi' := by
    obtain ⟨b, hb, hk, i, hi, hτ⟩ := mem_code_rewrite hi'
    have hic : i ∈ code bs := mem_code.mpr ⟨b, hb, hi⟩
    obtain ⟨-, hterm, htargets, hfits⟩ := h.instr i hic i' hτ
    refine { hfits with targets := fun x hx => ?_ }
    cases hi't : i'.isTerminator with
    | false => simp [hfits.inner hi't] at hx
    | true =>
      obtain ⟨r, hr, rfl⟩ := hfits.targets x hx
      obtain ⟨c, hc, rfl⟩ := List.mem_map.mp hr
      obtain ⟨pre, post, he⟩ := List.append_of_mem hi
      have hit : i.isTerminator = true := hterm ▸ hi't
      obtain rfl := ((S.closed b hb).isTerminator_iff he).mp hit
      have hs : some c.ref ∈ b.successors := by
        rw [Block.successors_eq he hit]
        exact htargets _ hx
      refine ⟨c.ref, List.mem_map.mpr ⟨c.rewrite τ, ?_, rfl⟩, rfl⟩
      exact List.mem_map.mpr ⟨c, List.mem_filter.mpr ⟨hc, h.successor b hb hk c hc hs⟩, rfl⟩
  results := S.results.sublist h.results_rewrite
  registers := by
    have he : ∀ bs, (code bs).filterMap (·.ref.register) =
        ((code bs).map (·.ref)).filterMap (·.register) := by
      intro bs
      rw [List.filterMap_map]
      rfl
    have := S.registers
    rw [he] at this ⊢
    exact this.sublist (h.results_rewrite.filterMap _)
  uses ds' b' hp' pre' i' post' he' r hr hn := by
    obtain ⟨ds, b, pre, i, post, hp, hi, hτ, hds⟩ := h.reflect S hp' he'
    have hmem : i ∈ code bs := mem_code.mpr ⟨b, hp.mem, by simp [hi]⟩
    obtain ⟨hr, hkept⟩ := h.uses i hmem i' hτ r hr hn
    exact hds r (S.uses ds b hp pre i post hi r hr hn) hkept

end

end Regular

/-- Frames of the old code and of the new code that agree on all results that are kept. -/
structure Agree (n : Nat) (bs : List Block) (τ : Instr → Option Instr) (fr fr' : Frame) : Prop where
  args : fr'.args = fr.args
  slots : fr'.slots = fr.slots
  size : fr.registers.size = n
  size' : fr'.registers.size = n
  kept : ∀ i ∈ code bs, τ i ≠ none → fr'.result i.ref = fr.result i.ref

/-- What makes a rewriting safe. The invariant `inv` is about the old code: it relates the results
so far to the frame. -/
structure Rewriting (n : Nat) (bs : List Block) (keep : Block → Bool) (τ : Instr → Option Instr)
    (inv : List ResultRef → Frame → Prop) : Prop extends Regular n bs keep τ where
  start : ∀ fr, inv [] fr
  dropped : ∀ ds i rest, Standing bs ds (i :: rest) none → τ i = none → ∀ fr globals, inv ds fr →
    fr.registers.size = n → ∃ v, i.effect fr globals = .value v fr.slots globals ∧
      inv (ds ++ [i.ref]) (fr.record i.ref v)
  kept : ∀ ds i rest i', Standing bs ds (i :: rest) none → τ i = some i' → ∀ fr fr', inv ds fr →
    Agree n bs τ fr fr' → ∀ globals, i'.effect fr' globals = i.effect fr globals
  recorded : ∀ ds i rest, Standing bs ds (i :: rest) none → τ i ≠ none → ∀ fr slots v, inv ds fr →
    inv (ds ++ [i.ref]) (Frame.record { fr with slots := slots } i.ref v)

namespace Agree

variable {n : Nat} {bs : List Block} {τ : Instr → Option Instr} {fr fr' : Frame}

theorem ofFunction (f : Function) (args : List Value) :
    Agree f.registers bs τ (.ofFunction f args) (.ofFunction f args) where
  args := rfl
  slots := rfl
  size := by simp [Frame.ofFunction]
  size' := by simp [Frame.ofFunction]
  kept _ _ _ := rfl

theorem record (h : Agree n bs τ fr fr') (s : Array Value) (r : ResultRef) (v : Value) :
    Agree n bs τ (Frame.record { fr with slots := s } r v)
      (Frame.record { fr' with slots := s } r v) where
  args := by simp [h.args]
  slots := by simp
  size := by simp [h.size]
  size' := by simp [h.size']
  kept i hi hk := by
    refine Frame.result_record_congr (by simp [h.size, h.size']) ?_ v
    exact h.kept i hi hk

theorem record_dropped (S : Sound n bs) (h : Agree n bs τ fr fr') {i : Instr} (hi : i ∈ code bs)
    (hd : τ i = none) (v : Value) : Agree n bs τ (fr.record i.ref v) fr' where
  args := by simp [h.args]
  slots := by simp [h.slots]
  size := by simp [h.size]
  size' := h.size'
  kept j hj hk := by
    rw [h.kept j hj hk]
    refine (Frame.result_record_of_ne ?_ fr v).symm
    by_contra hne
    obtain ⟨hr, he⟩ := not_or.mp hne
    have hij := S.eq_of_ref_eq hj hi (S.ref_eq_of_register_eq hj hi hr (not_not.mp he))
    exact hk (hij ▸ hd)

theorem operand?_eq (S : Sound n bs) {ds : List ResultRef} {i : Instr} {rest : List Instr}
    (hp : Standing bs ds (i :: rest) none) (h : Agree n bs τ fr fr') {x : Operand}
    (hx : x ∈ i.args)
    (hk : ∀ r, x = .result r → r.register ≠ none → ∀ j ∈ code bs, j.ref = r → τ j ≠ none) :
    fr'.operand? x = fr.operand? x := by
  cases x with
  | param => simp only [Frame.operand?, h.args]
  | result r =>
    rw [Frame.operand?_result, Frame.operand?_result]
    by_cases hn : r.register = none
    · rw [Frame.result_of_register_eq_none hn, Frame.result_of_register_eq_none hn]
    · have hu : r ∈ i.uses := List.mem_filterMap.mpr ⟨_, hx, rfl⟩
      obtain ⟨j, hj, rfl⟩ := hp.mem_results (hp.defined S hu hn)
      rw [h.kept j hj (hk _ rfl hn j hj rfl)]
  | real | truth | func | hole => rfl

end Agree

namespace Rewriting

variable {n : Nat} {bs : List Block} {keep : Block → Bool} {τ : Instr → Option Instr}
  {inv : List ResultRef → Frame → Prop} {f : Function}

structure Rel (n : Nat) (bs : List Block) (keep : Block → Bool) (τ : Instr → Option Instr)
    (inv : List ResultRef → Frame → Prop) (f : Function) (a a' : Activation) : Prop where
  function : a.function = { f with blocks := rewriteBlocks keep τ bs }
  function' : a'.function = { f with blocks := bs }
  depth : a.depth = a'.depth
  next : a.next = a'.next
  rest : a.rest = a'.rest.filterMap τ
  frame : Agree n bs τ a'.frame a.frame
  position : ∃ ds, Standing bs ds a'.rest a'.next ∧ inv ds a'.frame

section

variable (S : Sound n bs) (R : Rewriting n bs keep τ inv)

include S R

theorem Rel.skip {a a' : Activation} (h : Rel n bs keep τ inv f a a') (m' : Machine) (w : World) :
    ∃ k b', m'.Leads k a' w b' w ∧ Rel n bs keep τ inv f a b' ∧
      ∀ i rest, b'.rest = i :: rest → τ i ≠ none := by
  generalize hrest : a'.rest = rest
  induction rest generalizing a' with
  | nil => exact ⟨0, a', .refl _ _, h, by simp [hrest]⟩
  | cons i rest ih =>
    by_cases hi : τ i = none
    · obtain ⟨ds, hp, hinv⟩ := h.position
      rw [hrest] at hp
      cases hnext : a'.next with
      | some r => rw [hnext] at hp; cases hp
      | none =>
        rw [hnext] at hp
        obtain ⟨v, he, hv⟩ := R.dropped ds i rest hp hi a'.frame w.globals hinv h.frame.size
        have ht : m'.turn a' w = .go (a'.receive v) w := by
          rw [m'.turn_cons hrest, he]
          rfl
        have hr : a'.receive v = { a' with frame := a'.frame.record i.ref v, rest := rest } := by
          simp only [Activation.receive, hrest]
        have h' : Rel n bs keep τ inv f a (a'.receive v) := by
          rw [hr]
          exact
            { h with
              rest := by rw [h.rest, hrest, List.filterMap_cons_none hi]
              frame := h.frame.record_dropped S hp.mem_code hi v
              position := ⟨_, by rw [hnext]; exact hp.advance S (i.not_isTerminator_of_value he),
                hv⟩ }
        obtain ⟨k, b', hl, hb, hk⟩ := ih h' (by rw [hr])
        exact ⟨k + 1, b', .go ht hl, hb, hk⟩
    · exact ⟨0, a', .refl _ _, h, fun j rest' he => by
        rw [hrest] at he
        exact (List.cons.inj he).1 ▸ hi⟩

theorem Rel.receive {a a' : Activation}
    (h : Rel n bs keep τ inv f a a') {i i' : Instr} {rest : List Instr} (hr : a'.rest = i :: rest)
    (hi : τ i = some i') (hn : i.isTerminator = false) (s : Array Value) (v : Value) :
    Rel n bs keep τ inv f ({ a with frame := { a.frame with slots := s } }.receive v)
      ({ a' with frame := { a'.frame with slots := s } }.receive v) := by
  obtain ⟨ds, hp, hinv⟩ := h.position
  rw [hr] at hp
  cases hnext : a'.next with
  | some r => rw [hnext] at hp; cases hp
  | none =>
    rw [hnext] at hp
    have hr' : a.rest = i' :: rest.filterMap τ := by
      rw [h.rest, hr, List.filterMap_cons_some hi]
    have href := (R.instr i hp.mem_code i' hi).1
    simp only [Activation.receive, hr, hr', href]
    exact
      { h with
        next := h.next.trans hnext
        rest := rfl
        frame := h.frame.record s i.ref v
        position := ⟨ds ++ [i.ref], hp.advance S hn,
          R.recorded ds i rest hp (by simp [hi]) a'.frame s v hinv⟩ }

theorem stepsAlike {m m' : Machine}
    (P : Machine.Paired m m') : Machine.StepsAlike m m' (Rel n bs keep τ inv f) := by
  intro a a' w w' ha hw
  obtain ⟨k, b', hl, h, hkept⟩ := ha.skip S R m' w'
  refine ⟨0, a, w, k, b', w', .refl _ _, hl, hw, ?_⟩
  obtain ⟨c, rfl⟩ := World.untimed_eq_iff.mp hw
  obtain ⟨ds, hp, hinv⟩ := h.position
  cases hrest : b'.rest with
  | nil =>
    have hrest' : a.rest = [] := by rw [h.rest, hrest]; rfl
    rw [hrest] at hp
    cases hnext : b'.next with
    | none => rw [hnext] at hp; cases hp
    | some r =>
      rw [hnext] at hp
      obtain ⟨c, rfl, hpath, hfind, hp'⟩ := hp.enter S
      have hb : a.function.block? c.ref = some (c.rewrite τ) := by
        rw [h.function]; exact R.find?_rewriteBlocks S hpath
      have hb' : b'.function.block? c.ref = some c := by rw [h.function']; exact hfind
      rw [Machine.turn_nil P.idle hrest' (h.next.trans hnext) hb,
        Machine.turn_nil P.idle' hrest hnext hb']
      exact .go { h with next := rfl, rest := rfl, position := ⟨ds, hp', hinv⟩ } rfl
  | cons i rest =>
    rw [hrest] at hp
    cases hnext : b'.next with
    | some r => rw [hnext] at hp; cases hp
    | none =>
      rw [hnext] at hp
      obtain ⟨i', hi⟩ := Option.ne_none_iff_exists'.mp (hkept i rest hrest)
      have hrest' : a.rest = i' :: rest.filterMap τ := by
        rw [h.rest, hrest, List.filterMap_cons_some hi]
      have href := (R.instr i hp.mem_code i' hi).1
      have heff := R.kept ds i rest i' hp hi
      have hslots : { a.frame with slots := b'.frame.slots } = a.frame := by rw [← h.frame.slots]
      rw [m.turn_cons hrest', m'.turn_cons hrest, heff _ _ hinv h.frame]
      refine P.alike_enact hw (by rw [h.function, h.function']; rfl) h.depth _ ?_ ?_ ?_
      · intro v s g he
        exact h.receive S R hrest hi (i.not_isTerminator_of_value he) s v
      · intro g xs he x
        have hs := h.receive S R hrest hi (i.not_isTerminator_of_call he) b'.frame.slots x
        rwa [hslots] at hs
      · intro t he
        obtain ⟨rfl, r, rfl, hp'⟩ := hp.jump S he
        simp only [Activation.receive, hrest, hrest', href]
        exact
          { h with
            next := rfl
            rest := rfl
            frame := hslots ▸ h.frame.record b'.frame.slots i.ref .zero
            position := ⟨_, hp', R.recorded ds i [] hp (by simp [hi]) b'.frame b'.frame.slots
              .zero hinv⟩ }

theorem matches_of_sound (hf : f.registers = n) :
    Machine.Matches { f with blocks := rewriteBlocks keep τ bs } { f with blocks := bs } := by
  refine ⟨Rel n bs keep τ inv f, fun args d => .inr ?_, fun m m' P => R.stepsAlike S P⟩
  obtain ⟨b, rest, rfl⟩ := List.exists_cons_of_ne_nil S.nonempty
  have he := R.head?_rewriteBlocks (b := b) rfl
  refine ⟨_, _, by simp only [Activation.start?, he]; rfl, rfl, ?_⟩
  exact
    { function := rfl
      function' := rfl
      depth := rfl
      next := rfl
      rest := rfl
      frame := by subst hf; exact Agree.ofFunction f args
      position := ⟨[], .start S rfl, R.start _⟩ }

end

end Rewriting

namespace Optimize

structure Preserves (n : Nat) (bs bs' : List Block) : Prop where
  sound : Sound n bs'
  behaves : ∀ f : Function, f.registers = n →
    Machine.Matches { f with blocks := bs' } { f with blocks := bs }

end Optimize

theorem Rewriting.preserves {n : Nat} {bs : List Block} {keep : Block → Bool}
    {τ : Instr → Option Instr} {inv : List ResultRef → Frame → Prop} (S : Sound n bs)
    (R : Rewriting n bs keep τ inv) : Optimize.Preserves n bs (rewriteBlocks keep τ bs) :=
  ⟨R.sound S, fun _ hf => R.matches_of_sound S hf⟩

theorem Rewriting.of_keep {n : Nat} {bs : List Block} {keep : Block → Bool} (S : Sound n bs)
    (entry : ∀ b, bs.head? = some b → keep b = true)
    (successor : ∀ b ∈ bs, keep b = true → ∀ c ∈ bs, some c.ref ∈ b.successors → keep c = true) :
    Rewriting n bs keep some fun _ _ => True where
  entry := entry
  successor := successor
  terminator := by simp
  instr i hi i' h := by
    cases h
    exact ⟨rfl, rfl, fun _ h => h, S.fits i hi⟩
  uses i hi i' h r hr _ := by
    cases h
    exact ⟨hr, by simp⟩
  start _ := trivial
  dropped := by simp
  recorded _ _ _ _ _ _ _ _ _ := trivial
  kept ds i rest i' hp h fr fr' _ ha globals := by
    cases h
    exact Instr.effect_congr ha.slots (fun x hx => ha.operand?_eq S hp hx (by simp)) globals

theorem rewriteBlocks_some (keep : Block → Bool) (bs : List Block) :
    rewriteBlocks keep some bs = bs.filter keep := by
  have : Block.rewrite some = id := by
    funext b
    simp [Block.rewrite]
  simp [rewriteBlocks, this]

theorem Optimize.Preserves.refl {n : Nat} {bs : List Block} (S : Sound n bs) :
    Optimize.Preserves n bs bs := by
  have R : Rewriting n bs (fun _ => true) some fun _ _ => True :=
    .of_keep S (fun _ _ => rfl) fun _ _ _ _ _ _ => rfl
  have := R.preserves S
  rwa [rewriteBlocks_some, List.filter_true] at this

end RealScript
