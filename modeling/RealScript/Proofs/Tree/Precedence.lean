import RealScript.Proofs.Tree.Unfolding

/-! # Chains of operators

Operands with operators between them can be put together in many ways. One of them is ordered: each
operator binds no tighter than those to its left below it, and less tight than those to its right
below it. The parser finds that one, and takes the chain and nothing else.
-/

namespace RealScript

structure Link where
  tok : Token
  op : Operator
  operand : Node

/-- A tree over the operands of a chain. Operands are leaves, whatever they are made of. -/
inductive Grouping where
  | leaf (operand : Node)
  | join (tok : Token) (op : Operator) (l r : Grouping)

namespace Grouping

def node : Grouping → Node
  | leaf operand => operand
  | join tok op l r => .binary tok.pos op.spelling l.node r.node

def first : Grouping → Node
  | leaf operand => operand
  | join _ _ l _ => l.first

def links : Grouping → List Link
  | leaf _ => []
  | join tok op l r => l.links ++ ⟨tok, op, r.first⟩ :: r.links

/-- Operators bind no tighter than those to their left and less tight than those to their right. -/
def Ordered : Grouping → Prop
  | leaf _ => True
  | join _ op l r => l.Ordered ∧ r.Ordered ∧ (∀ k ∈ l.links, op.precedence ≤ k.op.precedence) ∧
      ∀ k ∈ r.links, op.precedence < k.op.precedence

def leftmost (g : Grouping) (ks : List Link) : Grouping :=
  ks.foldl (fun l k => .join k.tok k.op l (.leaf k.operand)) g

theorem length_le_of_links {tok tok' : Token} {op op' : Operator} {l r l' r' : Grouping}
    (h : (join tok op l r).Ordered) (h' : (join tok' op' l' r').Ordered)
    (he : (join tok op l r).links = (join tok' op' l' r').links) :
    l'.links.length ≤ l.links.length := by
  -- Otherwise the root of each tree is an operator of the other one, below its root.
  refine Nat.le_of_not_lt fun hlt => ?_
  simp only [links] at he
  have hroot : (⟨tok, op, r.first⟩ : Link) ∈ l'.links := by
    have hget := congrArg (·[l.links.length]?) he
    simp only [List.getElem?_append_right (Nat.le_refl _), Nat.sub_self, List.getElem?_cons_zero,
      List.getElem?_append_left hlt] at hget
    exact List.mem_of_getElem? hget.symm
  have hroot' : (⟨tok', op', r'.first⟩ : Link) ∈ r.links := by
    obtain ⟨n, hn⟩ := Nat.exists_eq_add_of_lt hlt
    have hget := congrArg (·[l'.links.length]?) he
    simp only [List.getElem?_append_right (Nat.le_refl _), Nat.sub_self, List.getElem?_cons_zero,
      List.getElem?_append_right (Nat.le_of_lt hlt)] at hget
    rw [show l'.links.length - l.links.length = n + 1 by omega, List.getElem?_cons_succ] at hget
    exact List.mem_of_getElem? hget
  have hle := h'.2.2.1 _ hroot
  have hlt' := h.2.2.2 _ hroot'
  exact absurd hle (Nat.not_le_of_lt hlt')

theorem Ordered.eq {g g' : Grouping} (h : g.Ordered) (h' : g'.Ordered) (hf : g.first = g'.first)
    (hl : g.links = g'.links) : g = g' := by
  induction g generalizing g' with
  | leaf operand =>
    cases g' with
    | leaf => exact congrArg leaf hf
    | join => simp [links] at hl
  | join tok op l r ihl ihr =>
    cases g' with
    | leaf => simp [links] at hl
    | join tok' op' l' r' =>
      have hlen : l.links.length = l'.links.length :=
        Nat.le_antisymm (length_le_of_links h' h hl.symm) (length_le_of_links h h' hl)
      obtain ⟨hll, hr⟩ := List.append_inj (show l.links ++ _ = l'.links ++ _ from hl) hlen
      obtain ⟨hroot, hrl⟩ := List.cons.inj hr
      obtain ⟨rfl, rfl, hrf⟩ := Link.mk.inj hroot
      rw [ihl h.1 h'.1 hf hll, ihr h.2.1 h'.2.1 hrf hrl]

theorem first_leftmost (g : Grouping) (ks : List Link) : (g.leftmost ks).first = g.first := by
  induction ks generalizing g with
  | nil => rfl
  | cons k ks ih => exact ih _

theorem links_leftmost (g : Grouping) (ks : List Link) : (g.leftmost ks).links = g.links ++ ks := by
  induction ks generalizing g with
  | nil => exact (List.append_nil _).symm
  | cons k ks ih =>
    refine (ih _).trans ?_
    simp [links, first]

theorem ordered_leftmost {p : Nat} {g : Grouping} (hg : g.Ordered)
    (hp : ∀ k ∈ g.links, k.op.precedence = p) {ks : List Link}
    (hks : ∀ k ∈ ks, k.op.precedence = p) :
    (g.leftmost ks).Ordered := by
  induction ks generalizing g with
  | nil => exact hg
  | cons k ks ih =>
    have hk := hks k List.mem_cons_self
    refine ih ⟨hg, trivial, fun j hj => ?_, fun j hj => by cases hj⟩ (fun j hj => ?_)
      fun j hj => hks j (List.mem_cons_of_mem _ hj)
    · exact Nat.le_of_eq (hk.trans (hp j hj).symm)
    · rcases List.mem_append.mp hj with hj | hj
      · exact hp j hj
      · obtain rfl := List.mem_singleton.mp hj
        exact hk

end Grouping

namespace Parse

/-- The stream goes on with these operators and operands, up to a token that is no operator between
operands. -/
inductive Continues : Stream → List Link → Stream → Prop where
  | stop {s : Stream} : binaryOperator? s.tok = none → Continues s [] s
  | link {s s₁ s₂ t : Stream} {op : Operator} {operand : Node} {ks : List Link} :
      binaryOperator? s.tok = some op → advance s = .ok ((), s₁) →
      Calls.ample.unary s₁ = .ok (operand, s₂) → Continues s₂ ks t →
      Continues s (⟨s.tok, op, operand⟩ :: ks) t

/-- The stream starts with a chain of operands, each one read by `unary`, with operators between
them. -/
def Chained (s : Stream) (first : Node) (ks : List Link) (t : Stream) : Prop :=
  ∃ s₁, Calls.ample.unary s = .ok (first, s₁) ∧ Continues s₁ ks t

variable {s s₁ s₂ t : Stream} {ks : List Link}

theorem closed_of_unary (hs : s.Closed) {n : Node} (h : Calls.ample.unary s = .ok (n, t)) :
    t.Closed := by
  obtain ⟨he, hbelow⟩ := (alike_unfold _).unary s hs (Nat.le_refl _)
  exact (hbelow n t (he ▸ h)).closed

theorem closed_of_advance (hs : s.Closed) {op : Operator} (hop : binaryOperator? s.tok = some op)
    (h : advance s = .ok ((), t)) : t.Closed := by
  refine ((advance_agree hs fun hk => ?_).2 () t h).closed
  cases hl : s.tok.lexeme <;> simp_all [binaryOperator?, Token.kind, Lexeme.kind]

theorem unfold_binary_run (least : Nat) (lhs : Node) (s : Stream) :
    Calls.ample.unfold.binary least lhs s = (match binaryOperator? s.tok with
      | none => return lhs
      | some op => do
        if op.precedence < least then return lhs
        advance
        Calls.ample.combine s.tok op least lhs (← Calls.ample.unary) : Parse Node) s :=
  rfl

theorem binary_of_loose (hs : s.Closed) {least : Nat} (lhs : Node)
    (h : ∀ op ∈ binaryOperator? s.tok, op.precedence < least) :
    Calls.ample.binary least lhs s = .ok (lhs, s) := by
  rw [((alike_unfold _).binary least lhs s hs (Nat.le_refl _)).1, unfold_binary_run]
  cases hop : binaryOperator? s.tok with
  | none => rfl
  | some op =>
    simp only [if_pos (h op hop)]
    rfl

theorem binary_of_link (hs : s.Closed) {op : Operator} (hop : binaryOperator? s.tok = some op)
    {least : Nat} (hle : least ≤ op.precedence) (ha : advance s = .ok ((), s₁)) {operand : Node}
    (hu : Calls.ample.unary s₁ = .ok (operand, s₂)) {rhs : Node}
    (hr : Calls.ample.binary (op.precedence + 1) operand s₂ = .ok (rhs, t)) (lhs : Node) :
    Calls.ample.binary least lhs s = Calls.ample.binary least
    (.binary s.tok.pos op.spelling lhs rhs) t := by
  rw [((alike_unfold _).binary least lhs s hs (Nat.le_refl _)).1, unfold_binary_run, hop]
  simp only [if_neg (Nat.not_lt.mpr hle)]
  rw [bind_run, ha]
  change (Calls.ample.unary >>= fun operand => Calls.ample.combine s.tok op least lhs operand) s₁ =
    _
  rw [bind_run, hu]
  cases htight : (binaryOperator? s₂.tok).any (op.precedence < ·.precedence) with
  | true =>
    change (if (binaryOperator? s₂.tok).any (op.precedence < ·.precedence) then _ else
      _ : Parse Node) s₂ = _
    rw [if_pos htight, bind_run, hr]
  | false =>
    have hloose : Calls.ample.binary (op.precedence + 1) operand s₂ = .ok (operand, s₂) := by
      refine binary_of_loose (closed_of_unary (closed_of_advance hs hop ha) hu) operand
        fun o ho => ?_
      rw [Option.mem_def.mp ho, Option.any_some, decide_eq_false_iff_not] at htight
      exact Nat.lt_succ_of_le (Nat.le_of_not_lt htight)
    cases hloose.symm.trans hr
    change (if (binaryOperator? s₂.tok).any (op.precedence < ·.precedence) then _ else
      _ : Parse Node) s₂ = _
    rw [if_neg (by simp [htight])]
    rfl

theorem Continues.head_eq (h : Continues s ks t) : binaryOperator? s.tok = ks.head?.map (·.op) := by
  cases h with
  | stop hs => exact hs
  | link hs => exact hs

/-- The tree `g` has become `g'` by operators that bind at least as tight as `least`, and the next
one does not. -/
structure Climbs (least : Nat) (g : Grouping) (taken rest : List Link) (g' : Grouping) : Prop where
  ordered : g'.Ordered
  first : g'.first = g.first
  links : g'.links = g.links ++ taken
  tight : ∀ k ∈ taken, least ≤ k.op.precedence
  loose : ∀ k ∈ rest.head?, k.op.precedence < least

theorem Climbs.join {g r g' : Grouping} {least : Nat} {tok : Token} {op : Operator} {operand : Node}
    {taken taken' rest rest' : List Link} (hle : least ≤ op.precedence)
    (hr : Climbs (op.precedence + 1) (.leaf operand) taken rest r)
    (hg : Climbs least (.join tok op g r) taken' rest' g') :
    Climbs least g (⟨tok, op, operand⟩ :: (taken ++ taken')) rest' g' where
  ordered := hg.ordered
  first := hg.first
  links := by
    rw [hg.links, Grouping.links, hr.links, hr.first]
    simp [Grouping.links, Grouping.first]
  tight k hk := by
    rcases List.mem_cons.mp hk with rfl | hk
    · exact hle
    · rcases List.mem_append.mp hk with hk | hk
      · exact Nat.le_trans hle (Nat.le_of_succ_le (hr.tight k hk))
      · exact hg.tight k hk
  loose := hg.loose

theorem binary_groups (g : Grouping) (least : Nat) (hs : s.Closed) (hc : Continues s ks t)
    (hg : g.Ordered) (hnext : ∀ k ∈ ks.head?, ∀ j ∈ g.links, k.op.precedence ≤ j.op.precedence) :
    ∃ taken rest, ∃ g' : Grouping, ∃ s₁, ks = taken ++ rest ∧ Continues s₁ rest t ∧ s₁.Closed ∧
      Calls.ample.binary least g.node s = .ok (g'.node, s₁) ∧ Climbs least g taken rest g' := by
  -- By induction on the length of the chain: both calls are for less of it.
  induction hn : ks.length using Nat.strongRecOn generalizing s ks g least with
  | ind n ih =>
    by_cases hloose : ∀ k ∈ ks.head?, k.op.precedence < least
    · refine ⟨[], ks, g, s, rfl, hc, hs, binary_of_loose hs _ fun op hop => ?_,
        hg, rfl, (List.append_nil _).symm, fun _ h => (by cases h), hloose⟩
      rw [hc.head_eq] at hop
      obtain ⟨k, hk, rfl⟩ := Option.map_eq_some_iff.mp hop
      exact hloose k hk
    cases hc with
    | stop => exact absurd (fun _ h => by cases h) hloose
    | @link _ s₁ s₂ _ op operand ks hop ha hu hc =>
      have hle : least ≤ op.precedence := by simpa using hloose
      have hs₂ := closed_of_unary (closed_of_advance hs hop ha) hu
      -- The right operand takes what binds tighter.
      obtain ⟨taken, rest, r, s₃, rfl, hc₃, hs₃, hbr, hr⟩ :=
        ih _ (by rw [← hn, List.length_cons]; exact Nat.lt_succ_self _) (.leaf operand)
          (op.precedence + 1) hs₂ hc trivial (fun _ _ _ h => by cases h) rfl
      have hbelow : ∀ j ∈ r.links, op.precedence < j.op.precedence := by
        rw [hr.links]
        exact hr.tight
      -- What comes next binds no tighter than this operator.
      have hnext' : ∀ k ∈ rest.head?, ∀ j ∈ (Grouping.join s.tok op g r).links,
          k.op.precedence ≤ j.op.precedence := by
        intro k hk j hj
        have hkop := Nat.le_of_lt_succ (hr.loose k hk)
        rcases List.mem_append.mp hj with hj | hj
        · exact Nat.le_trans hkop (hnext _ rfl j hj)
        · rcases List.mem_cons.mp hj with rfl | hj
          · exact hkop
          · exact Nat.le_trans hkop (Nat.le_of_lt (hbelow j hj))
      obtain ⟨taken', rest', g', s₄, rfl, hc₄, hs₄, hbg, hg'⟩ :=
        ih _ (by rw [← hn, List.length_cons, List.length_append]; omega) (.join s.tok op g r) least
          hs₃ hc₃ ⟨hg, hr.ordered, hnext _ rfl, hbelow⟩ hnext' rfl
      refine ⟨⟨s.tok, op, operand⟩ :: (taken ++ taken'), rest', g', s₄, by simp, hc₄, hs₄, ?_,
        hr.join hle hg'⟩
      rw [binary_of_link hs hop hle ha hu hbr]
      exact hbg

theorem Continues.eq_of_nil (h : Continues s ks t) (hks : ks = []) : s = t := by
  cases h with
  | stop => rfl
  | link => cases hks

/-- Precedence climbing: an expression is a whole chain, and its tree is the only one over the chain
in which operators bind no tighter than those to their left below them and less tight than those to
their right below them. So operators that bind alike associate to the left. -/
theorem Chained.expression_groups (hs : s.Closed) {u : Node} (h : Chained s u ks t) :
    ∃ g : Grouping, (g.first = u ∧ g.links = ks ∧ g.Ordered) ∧
      (∀ g' : Grouping, g'.first = u → g'.links = ks → g'.Ordered → g' = g) ∧
      (∀ fuel, 8 * s.rest.length + 4 ≤ fuel → expression fuel s = .ok (g.node, t)) ∧
      ∀ p, (∀ k ∈ ks, k.op.precedence = p) → g = (Grouping.leaf u).leftmost ks := by
  obtain ⟨s₁, hu, hc⟩ := h
  obtain ⟨taken, rest, g, s₂, rfl, hc₂, -, hb, hg⟩ := binary_groups (.leaf u) 0
    (closed_of_unary hs hu) hc
    trivial fun _ _ _ h => by cases h
  -- Every operator binds tight enough, so the chain is taken to its end.
  obtain rfl : rest = [] := by
    cases rest with
    | nil => rfl
    | cons k rest => exact absurd (hg.loose k rfl) (Nat.not_lt_zero _)
  obtain rfl := hc₂.eq_of_nil rfl
  have hfirst : g.first = u := hg.first
  have hlinks : g.links = taken ++ [] := hg.links.trans (List.append_nil _).symm
  have hunique : ∀ g' : Grouping, g'.first = u → g'.links = taken ++ [] → g'.Ordered → g' = g :=
    fun g' hf hl ho => ho.eq hg.ordered (hf.trans hfirst.symm) (hl.trans hlinks.symm)
  refine ⟨g, ⟨hfirst, hlinks, hg.ordered⟩, hunique, fun fuel hfuel => ?_, fun p hp => ?_⟩
  · have hagree := (alike_fueled_ample hfuel).expression s hs (Nat.le_refl _)
    have hunfold := (alike_unfold _).expression s hs (Nat.le_refl _)
    refine (hagree.1.trans hunfold.1).trans ?_
    change (Calls.ample.unary >>= Calls.ample.binary 0) s = _
    rw [bind_run, hu]
    exact hb
  · refine (hunique _ (Grouping.first_leftmost _ _) (Grouping.links_leftmost _ _) ?_).symm
    exact Grouping.ordered_leftmost (g := .leaf u) trivial (fun _ h => by cases h) hp

/-- In `x - y * z - w` the product is taken first and the differences from left to right. -/
theorem expression_groups_difference :
    let minus : Operator := ⟨"-", .arithmetic, 20⟩
    let times : Operator := ⟨"*", .arithmetic, 40⟩
    let name (column : Nat) (x : String) : Token := ⟨.identifier x, ⟨1, column⟩⟩
    let sign (column : Nat) (op : Operator) : Token := ⟨.operator op, ⟨1, column⟩⟩
    let stop : Token := ⟨.endOfInput, ⟨1, 14⟩⟩
    let s : Stream := ⟨name 1 "x", [sign 3 minus, name 5 "y", sign 7 times, name 9 "z",
      sign 11 minus,
      name 13 "w", stop], none⟩
    let ks : List Link := [⟨sign 3 minus, minus, .ident ⟨1, 5⟩ "y"⟩,
      ⟨sign 7 times, times, .ident ⟨1, 9⟩ "z"⟩,
      ⟨sign 11 minus, minus, .ident ⟨1, 13⟩ "w"⟩]
    (s.Closed ∧ Chained s (.ident ⟨1, 1⟩ "x") ks ⟨stop, [], none⟩) ∧
    ∃ g : Grouping, (g.first = .ident ⟨1, 1⟩ "x" ∧ g.links = ks ∧ g.Ordered) ∧
      (∀ g' : Grouping, g'.first = .ident ⟨1, 1⟩ "x" → g'.links = ks → g'.Ordered → g' = g) ∧
      (∀ fuel, 8 * s.rest.length + 4 ≤ fuel → expression fuel s = .ok (g.node, ⟨stop, [], none⟩)) ∧
      ∀ p, (∀ k ∈ ks, k.op.precedence = p) →
        g = (Grouping.leaf (.ident ⟨1, 1⟩ "x")).leftmost ks := by
  intro minus times name sign stop s ks
  have hs : s.Closed := fun _ => rfl
  have hc : Chained s (.ident ⟨1, 1⟩ "x") ks ⟨stop, [], none⟩ :=
    ⟨_, rfl, .link rfl rfl rfl (.link rfl rfl rfl (.link rfl rfl rfl (.stop rfl)))⟩
  exact ⟨⟨hs, hc⟩, hc.expression_groups hs⟩

end Parse

end RealScript
