import RealScript.Proofs.Optimize.Rewriting

/-! # Merging blocks

A block takes over the only block that it jumps to if nothing else leads there. The merged code
skips the jump between the two.
-/

namespace RealScript.Optimize

variable {c c' : Block} {ds : List ResultRef}

variable {n : Nat} {bs : List Block} {b next : Block}

structure Merging (bs : List Block) (b next : Block) : Prop where
  mem : b ∈ bs
  mem_next : next ∈ bs
  ne : next.ref ≠ b.ref
  entry : ∀ e, bs.head? = some e → e.ref ≠ next.ref
  jump : ∃ body t, b.instrs = body ++ [t] ∧ t.op = .br ∧ t.targets = [some next.ref]
  only : ∀ c ∈ bs, some next.ref ∈ c.successors → c.ref = b.ref

def takeOver (b next c : Block) : Block := if c.ref == b.ref then absorb b next else c

def merged (bs : List Block) (b next : Block) : List Block :=
  (bs.map (takeOver b next)).filter (·.ref != next.ref)

theorem eq_of_entries_eq_one {r : BlockRef} (h : entries bs r = 1) {b : Block} (hb : b ∈ bs)
    (hc : c ∈ bs) (hbr : some r ∈ b.successors) (hcr : some r ∈ c.successors) : c = b := by
  obtain ⟨pre, post, rfl⟩ := List.append_of_mem hb
  have hpos : 0 < b.successors.count (some r) := List.count_pos_iff.mpr hbr
  have hpos' : 0 < c.successors.count (some r) := List.count_pos_iff.mpr hcr
  have hle : ∀ l : List Block, c ∈ l →
      c.successors.count (some r) ≤ (l.flatMap (·.successors)).count (some r) := by
    intro l hl
    obtain ⟨p, q, rfl⟩ := List.append_of_mem hl
    simp only [List.flatMap_append, List.flatMap_cons, List.count_append]
    omega
  simp only [entries, List.flatMap_append, List.flatMap_cons, List.count_append] at h
  rcases List.mem_append.mp hc with hc | hc
  · have := hle pre hc
    omega
  · rcases List.mem_cons.mp hc with rfl | hc
    · rfl
    · have := hle post hc
      omega

theorem merging_of_mergeable? (W : Wired bs) (hb : b ∈ bs) (h : mergeable? bs b = some next) :
    Merging bs b next := by
  obtain ⟨body, t, he, ht, -⟩ := W.closed b hb
  have hterm : b.terminator? = some t := by simp [Block.terminator?, he, ht, Option.filter]
  have haims := W.aims t (mem_code.mpr ⟨b, hb, by simp [he]⟩)
  by_cases hop : t.op = .br
  · obtain ⟨x, hx⟩ := haims.br hop
    obtain ⟨r, -, rfl⟩ := haims.targets x (by simp [hx])
    simp only [mergeable?, hterm, Option.bind_eq_bind, Option.bind_some, hop, guard, if_true,
      Option.pure_def, hx, List.getElem?_cons_zero] at h
    split at h
    · rename_i hcond
      simp only [Bool.and_eq_true, bne_iff_ne, ne_eq, decide_eq_true_eq] at hcond
      obtain ⟨⟨hne, hentry⟩, hone⟩ := hcond
      have hfind : bs.find? (·.ref == r) = some next := by simpa [find?] using h
      have hnext : next ∈ bs := List.mem_of_find?_eq_some hfind
      obtain rfl : next.ref = r := by simpa using List.find?_some hfind
      have hs : some next.ref ∈ b.successors := by simp [Block.successors_eq he ht, hx]
      exact
        { mem := hb
          mem_next := hnext
          ne := hne
          entry := fun e he h => hentry (by simp [he, h])
          jump := ⟨body, t, he, hop, hx⟩
          only := fun c hc hcs => by rw [eq_of_entries_eq_one hone hb hc hs hcs] }
    · cases h
  · simp only [mergeable?, hterm, Option.bind_eq_bind, Option.bind_some, guard, if_neg hop] at h
    cases h

theorem mergeOnce?_eq_some (W : Wired bs) {bs' : List Block} (h : mergeOnce? bs = some bs') :
    ∃ b next, Merging bs b next ∧ bs' = merged bs b next := by
  simp only [mergeOnce?, Option.bind_eq_bind, Option.bind_eq_some_iff, Option.pure_def] at h
  obtain ⟨⟨b, next⟩, hfind, heq⟩ := h
  obtain ⟨c, hc, hm⟩ := List.exists_of_findSome?_eq_some hfind
  obtain ⟨nx, hnx, hpair⟩ := Option.map_eq_some_iff.mp hm
  cases hpair
  exact ⟨b, next, merging_of_mergeable? W hc hnx, (Option.some.inj heq).symm⟩

@[simp] theorem takeOver_ref (b next c : Block) : (takeOver b next c).ref = c.ref := by
  unfold takeOver
  split
  · rename_i h
    simp only [beq_iff_eq] at h
    simp [absorb, h]
  · rfl

theorem takeOver_of_ne (h : c.ref ≠ b.ref) (next : Block) : takeOver b next c = c := by
  simp [takeOver, h]

theorem takeOver_self (b next : Block) : takeOver b next b = absorb b next := by
  simp [takeOver]

theorem mem_merged :
    c' ∈ merged bs b next ↔ ∃ c ∈ bs, c.ref ≠ next.ref ∧ takeOver b next c = c' := by
  simp only [merged, List.mem_filter, List.mem_map, bne_iff_ne, ne_eq]
  constructor
  · rintro ⟨⟨c, hc, rfl⟩, hne⟩
    exact ⟨c, hc, by simpa using hne, rfl⟩
  · rintro ⟨c, hc, hne, rfl⟩
    exact ⟨⟨c, hc, rfl⟩, by simpa using hne⟩

theorem map_ref_merged (bs : List Block) (b next : Block) :
    (merged bs b next).map (·.ref) = (bs.map (·.ref)).filter (· != next.ref) := by
  simp [merged, List.filter_map, Function.comp_def]

theorem find?_merged (W : Wired bs) (hc : c ∈ bs) (hne : c.ref ≠ next.ref) :
    find? (merged bs b next) c.ref = some (takeOver b next c) := by
  have h : ((merged bs b next).map (·.ref)).Nodup := by
    rw [map_ref_merged]
    exact W.labels.filter _
  simpa using find?_eq_some h (mem_merged.mpr ⟨c, hc, hne, rfl⟩)

theorem Merging.head?_merged (M : Merging bs b next) {e : Block} (he : bs.head? = some e) :
    (merged bs b next).head? = some (takeOver b next e) := by
  have hne := M.entry e he
  cases bs with
  | nil => simp at he
  | cons c bs =>
    obtain rfl : c = e := by simpa using he
    simp [merged, hne]

theorem Merging.absorb_instrs (M : Merging bs b next) :
    ∃ body t, b.instrs = body ++ [t] ∧ t.op = .br ∧ t.targets = [some next.ref] ∧
      (absorb b next).instrs = body ++ next.instrs.map fun i => { i with block := b.ref } := by
  obtain ⟨body, t, he, ho, ht⟩ := M.jump
  exact ⟨body, t, he, ho, ht, by simp [absorb, he]⟩

theorem perm_cons_filter (h : (bs.map (·.ref)).Nodup) (hc : c ∈ bs) :
    bs.Perm (c :: bs.filter (·.ref != c.ref)) := by
  obtain ⟨pre, post, rfl⟩ := List.append_of_mem hc
  rw [List.perm_middle.map _ |>.nodup_iff, List.map_cons, List.nodup_cons] at h
  have hne : ∀ d ∈ pre ++ post, (d.ref != c.ref) = true := fun d hd =>
    bne_iff_ne.mpr fun he => h.1 (he ▸ List.mem_map_of_mem hd)
  have hf : (pre ++ c :: post).filter (·.ref != c.ref) = pre ++ post := by
    rw [List.filter_append, List.filter_cons_of_neg (by simp), ← List.filter_append,
      List.filter_eq_self.mpr hne]
  rw [hf]
  exact List.perm_middle

section

variable (W : Wired bs) (M : Merging bs b next)

include W M

theorem Merging.exists_perm :
    ∃ rest, bs.Perm (b :: next :: rest) ∧ (merged bs b next).Perm (absorb b next :: rest) := by
  let others := bs.filter (·.ref != next.ref)
  let rest := others.filter (·.ref != b.ref)
  have hbs : bs.Perm (next :: others) := perm_cons_filter W.labels M.mem_next
  have hb : b ∈ others := List.mem_filter.mpr ⟨M.mem, by simpa using M.ne.symm⟩
  have hothers : others.Perm (b :: rest) :=
    perm_cons_filter (W.labels.sublist (List.filter_sublist.map _)) hb
  have hmerged : merged bs b next = others.map (takeOver b next) := by
    simp [merged, others, List.filter_map, Function.comp_def]
  have hrest : rest.map (takeOver b next) = rest := by
    refine (List.map_congr_left fun c hc => takeOver_of_ne ?_ next).trans (List.map_id' _)
    simpa using (List.mem_filter.mp hc).2
  refine ⟨rest, (hbs.trans (hothers.cons next)).trans (.swap _ _ _), ?_⟩
  rw [hmerged]
  refine (hothers.map _).trans ?_
  rw [List.map_cons, takeOver_self, hrest]

theorem Merging.results_merged :
    ((code (merged bs b next)).map (·.ref)).Subperm ((code bs).map (·.ref)) := by
  obtain ⟨rest, hold, hnew⟩ := M.exists_perm W
  obtain ⟨body, t, he, -, -, hinstrs⟩ := M.absorb_instrs
  have hcode : ((code (absorb b next :: rest)).map (·.ref)).Sublist
      ((code (b :: next :: rest)).map (·.ref)) := by
    simp only [code, List.flatMap_cons, hinstrs, he, List.map_append, List.map_map,
      List.append_assoc]
    exact (List.Sublist.refl _).append (List.sublist_append_right _ _)
  exact ((hnew.flatMap_right _).map _).subperm.trans
    (hcode.subperm.trans ((hold.flatMap_right _).map _).symm.subperm)

theorem Merging.closed_absorb : ∃ body t inner u, b.instrs = body ++ [t] ∧ t.isTerminator = true ∧
      some next.ref ∈ b.successors ∧ next.instrs = inner ++ [u] ∧ u.isTerminator = true ∧
      (absorb b next).instrs = body ++ (inner ++ [u]).map (fun i => { i with block := b.ref }) ∧
      (∀ i ∈ body, i.isTerminator = false) ∧ ∀ i ∈ inner, i.isTerminator = false := by
  obtain ⟨body, t, he, ho, ht, hinstrs⟩ := M.absorb_instrs
  obtain ⟨inner, u, hn, hu, hinner⟩ := W.closed next M.mem_next
  have hterm : t.isTerminator = true := by simp [Instr.isTerminator, ho, Opcode.isTerminator]
  have hbody : ∀ i ∈ body, i.isTerminator = false := by
    intro i hi
    obtain ⟨p, q, rfl⟩ := List.append_of_mem hi
    have hb : b.instrs = p ++ i :: (q ++ [t]) := by simpa using he
    by_contra hne
    have := ((W.closed b M.mem).isTerminator_iff hb).mp (by simpa using hne)
    simp at this
  refine ⟨body, t, inner, u, he, hterm, ?_, hn, hu, by rw [hinstrs, hn], hbody, hinner⟩
  rw [Block.successors_eq he hterm, ht]
  exact List.mem_singleton.mpr rfl

theorem Merging.successors_absorb : (absorb b next).successors = next.successors := by
  obtain ⟨body, t, inner, u, -, -, -, hn, hu, hinstrs, -, -⟩ := M.closed_absorb W
  rw [Block.successors_eq hn hu]
  have he : (absorb b next).instrs =
      (body ++ inner.map fun i => { i with block := b.ref }) ++ [{ u with block := b.ref }] := by
    simp [hinstrs]
  exact Block.successors_eq he (t := { u with block := b.ref }) hu

end

theorem Merging.path_merged (S : Sound n bs) (M : Merging bs b next) {ds' : List ResultRef}
    (hp : Path (merged bs b next) ds' c') :
    ∃ ds c, Path bs ds c ∧ c.ref ≠ next.ref ∧ c' = takeOver b next c ∧
      ∀ r ∈ ds, r ∈ ds' ∨ ∃ t ∈ code bs, t.ref = r ∧ t.isTerminator = true := by
  induction hp with
  | entry hc =>
    obtain ⟨e, rest, rfl⟩ := List.exists_cons_of_ne_nil S.nonempty
    rw [M.head?_merged rfl] at hc
    exact ⟨[], e, .entry rfl, M.entry e rfl, (Option.some.inj hc).symm, by simp⟩
  | @step ds' c' d' _ hs hd ih =>
    obtain ⟨ds, c, hp, hne, rfl, hds⟩ := ih
    obtain ⟨d, hdm, hdn, rfl⟩ := mem_merged.mp hd
    rw [takeOver_ref] at hs
    by_cases hcb : c.ref = b.ref
    · obtain rfl := List.inj_on_of_nodup_map S.labels hp.mem M.mem hcb
      rw [takeOver_self] at hs ⊢
      obtain ⟨body, t, inner, u, he, ht, hjump, hn, -, hinstrs, -, -⟩ := M.closed_absorb S.wired
      rw [M.successors_absorb S.wired] at hs
      refine ⟨_, d, (hp.step hjump M.mem_next).step hs hdm, hdn, rfl, ?_⟩
      intro r hr
      simp only [he, hn, List.map_append, List.mem_append, List.map_cons, List.map_nil,
        List.mem_singleton] at hr
      simp only [hinstrs, List.map_append, List.map_map, List.mem_append]
      rcases hr with (hr | hr | rfl) | hr
      · exact (hds r hr).imp_left .inl
      · exact .inl (.inr (.inl hr))
      · exact .inr ⟨t, mem_code.mpr ⟨c, hp.mem, by simp [he]⟩, rfl, ht⟩
      · refine .inl (.inr (.inr ?_))
        simpa [Function.comp_def] using hr
    · rw [takeOver_of_ne hcb] at hs ⊢
      refine ⟨_, d, hp.step hs hdm, hdn, rfl, ?_⟩
      intro r hr
      rcases List.mem_append.mp hr with hr | hr
      · exact (hds r hr).imp_left (List.mem_append_left _)
      · exact .inl (List.mem_append_right _ hr)

theorem Merging.mem_code_merged (W : Wired bs) (M : Merging bs b next) {i : Instr}
    (hi : i ∈ code (merged bs b next)) :
    ∃ c ∈ bs, ∃ j ∈ c.instrs, (∃ l, i = { j with block := l }) ∧
      (j.isTerminator = true → c.ref ≠ b.ref) := by
  obtain ⟨c', hc', hi⟩ := mem_code.mp hi
  obtain ⟨c, hc, -, rfl⟩ := mem_merged.mp hc'
  by_cases hcb : c.ref = b.ref
  · obtain rfl := List.inj_on_of_nodup_map W.labels hc M.mem hcb
    obtain ⟨body, t, inner, u, he, -, -, hn, -, hinstrs, hbody, -⟩ := M.closed_absorb W
    rw [takeOver_self, hinstrs, ← hn] at hi
    rcases List.mem_append.mp hi with hi | hi
    · exact ⟨c, hc, i, by simp [he, hi], ⟨i.block, rfl⟩, by simp [hbody i hi]⟩
    · obtain ⟨j, hj, rfl⟩ := List.mem_map.mp hi
      exact ⟨next, M.mem_next, j, hj, ⟨_, rfl⟩, fun _ => M.ne⟩
  · rw [takeOver_of_ne hcb] at hi
    exact ⟨c, hc, i, hi, ⟨i.block, rfl⟩, fun _ => hcb⟩

theorem Merging.wired (W : Wired bs) (M : Merging bs b next) : Wired (merged bs b next) where
  nonempty := by
    obtain ⟨e, rest, rfl⟩ := List.exists_cons_of_ne_nil W.nonempty
    intro hn
    have := M.head?_merged (e := e) rfl
    simp [hn] at this
  labels := by
    rw [map_ref_merged]
    exact W.labels.filter _
  closed c' hc' := by
    obtain ⟨c, hc, -, rfl⟩ := mem_merged.mp hc'
    by_cases hcb : c.ref = b.ref
    · obtain rfl := List.inj_on_of_nodup_map W.labels hc M.mem hcb
      rw [takeOver_self]
      obtain ⟨body, t, inner, u, -, -, -, -, hu, hinstrs, hbody, hinner⟩ := M.closed_absorb W
      refine ⟨body ++ inner.map (fun i => { i with block := c.ref }), { u with block := c.ref },
        by simp [hinstrs], hu, fun i hi => ?_⟩
      rcases List.mem_append.mp hi with hi | hi
      · exact hbody i hi
      · obtain ⟨j, hj, rfl⟩ := List.mem_map.mp hi
        exact hinner j hj
    · rw [takeOver_of_ne hcb]
      exact W.closed c hc
  aims i hi := by
    obtain ⟨c, hc, j, hj, ⟨l, rfl⟩, hcb⟩ := M.mem_code_merged W hi
    have ha := W.aims j (mem_code.mpr ⟨c, hc, hj⟩)
    refine { ha with targets := fun x hx => ?_ }
    cases hjt : j.isTerminator with
    | false => simp [ha.inner hjt] at hx
    | true =>
      obtain ⟨r, hr, rfl⟩ := ha.targets x hx
      refine ⟨r, ?_, rfl⟩
      rw [map_ref_merged, List.mem_filter, bne_iff_ne]
      refine ⟨hr, ?_⟩
      rintro rfl
      obtain ⟨pre, post, he⟩ := List.append_of_mem hj
      obtain rfl := ((W.closed c hc).isTerminator_iff he).mp hjt
      exact hcb hjt (M.only c hc (by rw [Block.successors_eq he hjt]; exact hx))

theorem Merging.reflect (S : Sound n bs) (M : Merging bs b next) {ds' : List ResultRef}
    (hp' : Path (merged bs b next) ds' c') {pre' post' : List Instr} {i' : Instr}
    (he : c'.instrs = pre' ++ i' :: post') :
    ∃ ds c pre i post, Path bs ds c ∧ c.instrs = pre ++ i :: post ∧
    (∃ l, i' = { i with block := l }) ∧ ∀ r ∈ ds ++ pre.map (·.ref), r ∈ ds' ++ pre'.map (·.ref) ∨
        ∃ t ∈ code bs, t.ref = r ∧ t.isTerminator = true := by
  obtain ⟨ds, c, hp, -, rfl, hds⟩ := M.path_merged S hp'
  have hmono : ∀ rs : List ResultRef, (∀ r ∈ rs, r ∈ pre'.map (·.ref) ∨
      ∃ t ∈ code bs, t.ref = r ∧ t.isTerminator = true) → ∀ r ∈ ds ++ rs,
        r ∈ ds' ++ pre'.map (·.ref) ∨ ∃ t ∈ code bs, t.ref = r ∧ t.isTerminator = true := by
    intro rs hrs r hr
    rcases List.mem_append.mp hr with hr | hr
    · exact (hds r hr).imp_left (List.mem_append_left _)
    · exact (hrs r hr).imp_left (List.mem_append_right _)
  by_cases hcb : c.ref = b.ref
  · obtain rfl := List.inj_on_of_nodup_map S.labels hp.mem M.mem hcb
    obtain ⟨body, t, inner, u, hb, ht, hjump, hnext, -, hinstrs, -, -⟩ := M.closed_absorb S.wired
    have htc : t ∈ code bs := mem_code.mpr ⟨c, hp.mem, by simp [hb]⟩
    rw [takeOver_self, hinstrs, ← hnext] at he
    have hsplit : (∃ mid, pre' = body ++ mid ∧
        next.instrs.map (fun i => { i with block := c.ref }) = mid ++ i' :: post') ∨
        ∃ mid, body = pre' ++ i' :: mid := by
      rcases List.append_eq_append_iff.mp he with h | ⟨mid, rfl, hmid⟩
      · exact .inl h
      · cases mid with
        | nil => exact .inl ⟨[], by simp, hmid.symm⟩
        | cons x mid => exact .inr ⟨mid, by rw [(List.cons.inj hmid).1]⟩
    rcases hsplit with ⟨mid, rfl, hmid⟩ | ⟨mid, rfl⟩
    · -- The instruction comes from the block that was taken over, one jump further.
      obtain ⟨p, q, hpq, rfl, hq⟩ := List.map_eq_append_iff.mp hmid
      obtain ⟨j, q', rfl, rfl, -⟩ := List.map_eq_cons_iff.mp hq
      have hall := hmono (c.instrs.map (·.ref) ++ p.map (·.ref)) fun r hr => by
        simp only [hb, List.map_append, List.map_cons, List.map_nil, List.mem_append,
          List.mem_singleton] at hr
        rcases hr with (hr | rfl) | hr
        · exact .inl (by simp [List.mem_map.mp hr])
        · exact .inr ⟨t, htc, rfl, ht⟩
        · exact .inl (by simpa [Function.comp_def] using .inr (List.mem_map.mp hr))
      exact ⟨_, next, p, j, q', hp.step hjump M.mem_next, hpq, ⟨c.ref, rfl⟩, by simpa using hall⟩
    · exact ⟨ds, c, pre', i', mid ++ [t], hp, by simpa using hb, ⟨i'.block, rfl⟩,
        hmono _ fun r hr => .inl hr⟩
  · rw [takeOver_of_ne hcb] at he
    exact ⟨ds, c, pre', i', post', hp, he, ⟨i'.block, rfl⟩, hmono _ fun r hr => .inl hr⟩

theorem Merging.sound (S : Sound n bs) (M : Merging bs b next) : Sound n (merged bs b next) where
  nonempty := (M.wired S.wired).nonempty
  labels := (M.wired S.wired).labels
  closed := (M.wired S.wired).closed
  fits i hi := by
    obtain ⟨c, hc, j, hj, ⟨l, rfl⟩, -⟩ := M.mem_code_merged S.wired hi
    exact { S.fits j (mem_code.mpr ⟨c, hc, hj⟩) with targets := ((M.wired S.wired).aims
      _ hi).targets }
  results := by
    obtain ⟨l, hperm, hsub⟩ := M.results_merged S.wired
    exact hperm.nodup_iff.mp (S.results.sublist hsub)
  registers := by
    obtain ⟨l, hperm, hsub⟩ := M.results_merged S.wired
    have he : ∀ bs, (code bs).filterMap (·.ref.register) =
        ((code bs).map (·.ref)).filterMap (·.register) := by
      intro bs
      rw [List.filterMap_map]
      rfl
    have := S.registers
    rw [he] at this ⊢
    exact (hperm.filterMap _).nodup_iff.mp (this.sublist (hsub.filterMap _))
  uses ds' c' hp' pre' i' post' he r hr hn := by
    obtain ⟨ds, c, pre, i, post, hp, hi, ⟨l, rfl⟩, hds⟩ := M.reflect S hp' he
    rcases hds r (S.uses ds c hp pre i post hi r hr hn) with h | ⟨t, ht, rfl, hterm⟩
    · exact h
    · exact absurd ((S.fits t ht).terminator hterm) hn

abbrev SameCode : List Instr → List Instr → Prop :=
  List.Forall₂ fun i j => ∃ l, i = { j with block := l }

theorem sameCode_refl (is : List Instr) : SameCode is is :=
  List.forall₂_same.mpr fun i _ => ⟨i.block, rfl⟩

theorem sameCode_map (is : List Instr) (l : BlockRef) :
    SameCode (is.map fun i => { i with block := l }) is :=
  List.forall₂_map_left_iff.mpr (List.forall₂_same.mpr fun _ _ => ⟨l, rfl⟩)

inductive Place (bs : List Block) (b next : Block) :
    List Instr → List Instr → Option BlockRef → Prop where
  | outside {ds : List ResultRef} {c : Block} {pre new old : List Instr} : Path bs ds c →
      c.ref ≠ b.ref → c.instrs = pre ++ old → old ≠ [] → SameCode new old →
      Place bs b next new old none
  | within {ds : List ResultRef} {pre rest : List Instr} {t : Instr} : Path bs ds b →
      b.instrs = pre ++ (rest ++ [t]) →
      Place bs b next (rest ++ next.instrs.map fun i => { i with block := b.ref })
        (rest ++ [t]) none
  | leaving {ds : List ResultRef} {c : Block} {r : BlockRef} : Path bs ds c → c.ref ≠ b.ref →
      some r ∈ c.successors → Place bs b next [] [] (some r)

theorem Merging.place_enter (S : Sound n bs) (M : Merging bs b next) (hp : Path bs ds c) :
    Place bs b next (takeOver b next c).instrs c.instrs none := by
  by_cases hcb : c.ref = b.ref
  · obtain rfl := List.inj_on_of_nodup_map S.labels hp.mem M.mem hcb
    obtain ⟨body, t, he, -, -, hinstrs⟩ := M.absorb_instrs
    rw [takeOver_self, hinstrs, he]
    exact .within hp (show c.instrs = [] ++ (body ++ [t]) from he)
  · rw [takeOver_of_ne hcb]
    exact .outside hp hcb (show c.instrs = [] ++ c.instrs from rfl) (S.closed c hp.mem).ne_nil
      (sameCode_refl _)

structure Merging.Rel (bs : List Block) (b next : Block) (f : Function) (a a' : Activation) :
    Prop where
  function : a.function = { f with blocks := merged bs b next }
  function' : a'.function = { f with blocks := bs }
  depth : a.depth = a'.depth
  frame : a.frame = a'.frame
  target : a.next = a'.next
  place : Place bs b next a.rest a'.rest a'.next

variable {f : Function} {a a' : Activation} {m m' : Machine} {w w' : World}

theorem Merging.Rel.alike (P : Machine.Paired m m') (h : Merging.Rel bs b next f a a')
    (hw : w.untimed = w'.untimed) {i : Instr} {l : BlockRef} {new old : List Instr}
    (hnew : a.rest = { i with block := l } :: new) (hold : a'.rest = i :: old)
    (hin : i.isTerminator = false → Place bs b next new old a'.next)
    (hout : ∀ fr globals t, i.effect fr globals = .jump t → Place bs b next new old t) :
    Machine.Alike m m' (Merging.Rel bs b next f) a a' (m.turn a w) (m'.turn a' w') := by
  have hglobals : w.globals = w'.globals := by
    obtain ⟨c, rfl⟩ := World.untimed_eq_iff.mp hw
    rfl
  have heff : Instr.effect { i with block := l } a.frame w.globals =
    i.effect a'.frame w'.globals := by
    rw [h.frame, hglobals]
    rfl
  rw [m.turn_cons hnew, m'.turn_cons hold, heff]
  refine P.alike_enact hw (by rw [h.function, h.function']; rfl) h.depth _ ?_ ?_ ?_
  · intro v s g he
    simp only [Activation.receive, hnew, hold]
    exact { h with
      frame := by rw [h.frame]
      place := hin (i.not_isTerminator_of_value he) }
  · intro g xs he x
    simp only [Activation.receive, hnew, hold]
    exact { h with
      frame := by rw [h.frame]
      place := hin (i.not_isTerminator_of_call he) }
  · intro t he
    simp only [Activation.receive, hnew, hold]
    exact { h with
      frame := by rw [h.frame]
      target := rfl
      place := hout _ _ t he }

theorem Merging.alike_outside (S : Sound n bs) (P : Machine.Paired m m')
    (h : Merging.Rel bs b next f a a') (hw : w.untimed = w'.untimed) (hnext : a'.next = none)
    {pre : List Instr} (hp : Path bs ds c) (hcb : c.ref ≠ b.ref)
    (he : c.instrs = pre ++ a'.rest) (hne : a'.rest ≠ []) (hsame : SameCode a.rest a'.rest) :
    Machine.Alike m m' (Merging.Rel bs b next f) a a' (m.turn a w) (m'.turn a' w') := by
  obtain ⟨i, old, hold⟩ := List.exists_cons_of_ne_nil hne
  rw [hold] at hsame he
  obtain ⟨new, j, hnew, ⟨l, rfl⟩, hsame⟩ : ∃ new j, a.rest = j :: new ∧
      (∃ l, j = { i with block := l }) ∧ SameCode new old := by
    cases hr : a.rest with
    | nil => simp [hr] at hsame
    | cons j new =>
      rw [hr] at hsame
      obtain ⟨hj, hs⟩ := List.forall₂_cons.mp hsame
      exact ⟨new, j, rfl, hj, hs⟩
  refine h.alike P hw hnew hold (fun hi => ?_) fun fr globals t ht => ?_
  · rw [hnext]
    refine .outside hp hcb (show c.instrs = (pre ++ [i]) ++ old by simpa using he)
      (fun hn => ?_) hsame
    rw [((S.closed c hp.mem).isTerminator_iff he).mpr hn] at hi
    cases hi
  · obtain ⟨rfl, r, rfl, hs⟩ := S.jump hp.mem he ht
    obtain rfl : new = [] := by simpa using hsame
    exact .leaving hp hcb hs

section

variable (S : Sound n bs) (M : Merging bs b next)

include S M

theorem Merging.skip_jump (P : Machine.Paired m m')
    (h : Merging.Rel bs b next f a a') (hnext : a'.next = none)
    {pre : List Instr} {t : Instr} (hp : Path bs ds b) (he : b.instrs = pre ++ [t])
    (hold : a'.rest = [t]) (w' : World)
    (hnew : a.rest = next.instrs.map fun i => { i with block := b.ref }) :
    ∃ c' v', m'.Leads 2 a' w' c' v' ∧ w'.untimed = v'.untimed ∧ Merging.Rel bs b next f a c' ∧
      c'.next = none ∧ c'.rest = next.instrs := by
  obtain ⟨body, u, hu, ho, htargets⟩ := M.jump
  obtain ⟨rfl, rfl⟩ : pre = body ∧ t = u := by
    obtain ⟨hb, ht⟩ := List.append_inj' (he.symm.trans hu) rfl
    exact ⟨hb, List.singleton_injective ht⟩
  have hterm : t.isTerminator = true := by simp [Instr.isTerminator, ho, Opcode.isTerminator]
  have hreg := (S.fits t (mem_code.mpr ⟨b, M.mem, by simp [he]⟩)).terminator hterm
  have hs : some next.ref ∈ b.successors := by simp [Block.successors_eq he hterm, htargets]
  let a₁ : Activation := { a' with next := some next.ref, rest := [] }
  have hjump : m'.turn a' w' = .go a₁ w' := by
    rw [m'.turn_cons hold]
    simp only [Instr.effect, Frame.demanded, ho, Frame.operands?, Instr.apply, htargets,
      Machine.enact, Activation.receive, hold, Frame.record_of_register_eq_none hreg]
    rfl
  have hblock : a₁.function.block? next.ref = some next := by
    change a'.function.block? next.ref = some next
    rw [h.function']
    exact S.find?_of_mem M.mem_next
  refine ⟨_, _, .go hjump (.single (Machine.turn_nil P.idle' rfl rfl hblock w')), rfl, ?_, rfl, rfl⟩
  exact
    { function := h.function
      function' := h.function'
      depth := h.depth
      frame := h.frame
      target := h.target.trans hnext
      place := by
        rw [hnew]
        exact .outside (hp.step hs M.mem_next) M.ne
          (show next.instrs = [] ++ next.instrs from rfl) (S.closed next M.mem_next).ne_nil
          (sameCode_map _ _) }

theorem Merging.stepsAlike (P : Machine.Paired m m') :
    Machine.StepsAlike m m' (Merging.Rel bs b next f) := by
  intro a a' w w' h hw
  have hplace := h.place
  generalize hnew : a.rest = new at hplace
  generalize hold : a'.rest = old at hplace
  generalize hnext : a'.next = x at hplace
  cases hplace with
  | @outside ds c pre _ _ hp hcb he hne hsame =>
    refine ⟨0, a, w, 0, a', w', .refl _ _, .refl _ _, hw, ?_⟩
    subst hnew hold
    exact Merging.alike_outside S P h hw hnext hp hcb he hne hsame
  | @within ds pre rest t hp he =>
    cases rest with
    | nil =>
      obtain ⟨c', v', hl, hv, hrel, hn, hr⟩ := M.skip_jump S P h hnext hp he hold w' hnew
      refine ⟨0, a, w, 2, c', v', .refl _ _, hl, hw.trans hv, ?_⟩
      obtain ⟨body, t', inner, u, hb, -, hs, hnx, -⟩ := M.closed_absorb S.wired
      refine Merging.alike_outside S P hrel (hw.trans hv) hn (hp.step hs M.mem_next) M.ne
        (show next.instrs = [] ++ c'.rest from hr.symm) (by simp [hr, hnx]) ?_
      rw [hr, hnew]
      exact sameCode_map _ _
    | cons i rest =>
      refine ⟨0, a, w, 0, a', w', .refl _ _, .refl _ _, hw, ?_⟩
      have hb : b.instrs = pre ++ i :: (rest ++ [t]) := he
      refine h.alike P hw (l := i.block) hnew hold (fun _ => ?_) fun fr globals r hr => ?_
      · rw [hnext]
        exact .within hp (show b.instrs = (pre ++ [i]) ++ (rest ++ [t]) by simpa using hb)
      · exact absurd (S.jump hp.mem hb hr).1 (by simp)
  | @leaving ds c r hp hcb hs =>
    refine ⟨0, a, w, 0, a', w', .refl _ _, .refl _ _, hw, ?_⟩
    obtain ⟨d, hd, rfl⟩ := S.mem_of_successor hp.mem hs
    have hdn : d.ref ≠ next.ref := fun he => hcb (M.only c hp.mem (he ▸ hs))
    have hblock : a.function.block? d.ref = some (takeOver b next d) := by
      rw [h.function]
      exact find?_merged S.wired hd hdn
    have hblock' : a'.function.block? d.ref = some d := by
      rw [h.function']
      exact S.find?_of_mem hd
    rw [Machine.turn_nil P.idle hnew (h.target.trans hnext) hblock,
      Machine.turn_nil P.idle' hold hnext hblock']
    obtain ⟨c, rfl⟩ := World.untimed_eq_iff.mp hw
    exact .go { h with target := rfl, place := M.place_enter S (hp.step hs hd) } rfl

theorem Merging.preserves : Preserves n bs (merged bs b next) := by
  refine ⟨M.sound S, fun f _ => ⟨Merging.Rel bs b next f, fun args d => .inr ?_,
    fun m m' P => M.stepsAlike S P⟩⟩
  obtain ⟨e, rest, rfl⟩ := List.exists_cons_of_ne_nil S.nonempty
  have he := M.head?_merged (e := e) rfl
  refine ⟨_, _, by simp only [Activation.start?, he]; rfl, rfl, ?_⟩
  exact
    { function := rfl
      function' := rfl
      depth := rfl
      frame := rfl
      target := rfl
      place := M.place_enter S (.entry rfl) }

end

end RealScript.Optimize
