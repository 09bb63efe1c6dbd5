import RealScript.Proofs.Tree.Derivations

/-! # What is derived is accepted

A name in front of a statement that starts with a parenthesis is always read as a call, though the
grammar derives two statements too. The call takes that statement up to its closing parenthesis.
What is left of it is operators with their operands, so an expression and the statements behind it
are still an expression with statements behind it, and those that are left are no more than there
were.
-/

namespace RealScript

variable {x e z : Token} {ps : List String} {top : Bool} {m : Mark} {R : List Token}
  {kind : TokenKind}

variable {us : List Token} {closers : List TokenKind} {t : Token}

namespace Lexeme

def opensExpression : Lexeme → Bool
  | .operator op => op.category = .unary
  | .identifier _ | .number _ _ => true
  | .keyword .doCall | .keyword .func => true
  | .mark .leftParen | .mark .leftBracket | .mark .pipe => true
  | _ => false

def opensStatement : Lexeme → Bool
  | .keyword .ifThen | .keyword .whileLoop | .keyword .forLoop | .keyword .ret | .keyword .host =>
    true
  | l => l.opensExpression

theorem opensStatement_of_opensExpression {l : Lexeme} (h : l.opensExpression = true) :
    l.opensStatement = true := by
  unfold opensStatement
  split <;> first | rfl | exact h

end Lexeme

/-- Operators with their operands, with statements of at most `m` tokens behind them. -/
inductive Follows (top : Bool) (m : Nat) : List Token → Prop where
  | block {ns : List Node} {b : List Token} : Derives (.block top ns) b → b.length ≤ m →
    Follows top m b
  | operator {t : Token} {op : Operator} {n : Node} {u w : List Token} : t.Joins op →
      Derives (.unary n) u → Follows top m w → Follows top m (t :: (u ++ w))

theorem follows_nil : Follows true 0 [] := .block .empty (Nat.le_refl 0)

namespace Derives

variable {m least : Nat} {n : Node} {ns : List Node} {ts w : List Token}

theorem operand_follows (h : Derives (.expression least n) ts) (hw : Follows top m w) :
    ∃ n' u w', ts ++ w = u ++ w' ∧ Derives (.unary n') u ∧ Follows top m w' := by
  generalize hp : Phrase.expression least n = p at h
  induction h generalizing least n w with
  | operand hu => exact ⟨_, _, w, rfl, hu, hw⟩
  | binary hj _ _ _ ihl ihr =>
    obtain ⟨n', u, w', happ, hu, hw'⟩ := ihr hw rfl
    obtain ⟨n'', v, w'', happ', hv, hw''⟩ := ihl (.operator hj hu hw') rfl
    refine ⟨n'', v, w'', ?_, hv, hw''⟩
    rw [← happ', List.append_assoc, List.cons_append, happ]
  | _ => cases hp

theorem head_primary (h : Derives (.primary n) ts) :
    ∃ t us, ts = t :: us ∧ t.lexeme.opensExpression = true ∧ ∀ op, t.lexeme ≠ .operator op := by
  cases h with
  | ident ht | callEmpty ht | call ht | number ht | group ht | collection ht | sequence ht
  | builtin ht
  | funcLit ht => exact ⟨_, _, rfl, by rw [ht]; rfl, by rw [ht]; simp⟩

theorem head_unary (h : Derives (.unary n) ts) :
    ∃ t us, ts = t :: us ∧ t.lexeme.opensExpression = true := by
  cases h with
  | unary ht hc => exact ⟨_, _, rfl, by rw [ht]; exact decide_eq_true hc⟩
  | primary hp =>
    obtain ⟨t, us, rfl, ht, -⟩ := hp.head_primary
    exact ⟨t, us, rfl, ht⟩

theorem head_expression (h : Derives (.expression least n) ts) :
    ∃ t us, ts = t :: us ∧ t.lexeme.opensExpression = true := by
  obtain ⟨n', u, w', happ, hu, -⟩ := h.operand_follows follows_nil
  obtain ⟨t, us, rfl, ht⟩ := hu.head_unary
  exact ⟨t, us ++ w', by simpa using happ, ht⟩

theorem head_arguments (h : Derives (.arguments ns) ts) :
    ∃ t us, ts = t :: us ∧ t.lexeme.opensExpression = true := by
  cases h with
  | argument hn => exact hn.head_expression
  | argumentCons hn =>
    obtain ⟨t, us, rfl, ht⟩ := hn.head_expression
    exact ⟨t, _, rfl, ht⟩

theorem head_elements (h : Derives (.elements ns) ts) :
    ∃ t us, ts = t :: us ∧ t.lexeme.opensExpression = true := by
  cases h with
  | element hn =>
    obtain ⟨t, us, rfl, ht, -⟩ := hn.head_primary
    exact ⟨t, us, rfl, ht⟩
  | elementCons hn =>
    obtain ⟨t, us, rfl, ht, -⟩ := hn.head_primary
    exact ⟨t, _, rfl, ht⟩

theorem head_statement (h : Derives (.statement top n) ts) :
    ∃ t us, ts = t :: us ∧ t.lexeme.opensStatement = true := by
  cases h with
  | plain hn =>
    obtain ⟨t, us, rfl, ht⟩ := hn.head_expression
    exact ⟨t, us, rfl, Lexeme.opensStatement_of_opensExpression ht⟩
  | conditional ht | alternative ht | whileLoop ht | forLoop ht | forStep ht | ret ht
  | definition ht
  | host ht => exact ⟨_, _, rfl, by rw [ht]; rfl⟩

theorem head_block (h : Derives (.block top ns) ts) :
    ts = [] ∨ ∃ t us, ts = t :: us ∧ (t.lexeme = .mark .semicolon ∨
    t.lexeme.opensStatement = true) := by
  cases h with
  | empty => exact .inl rfl
  | separator ht => exact .inr ⟨_, _, rfl, .inl ht⟩
  | cons hn =>
    obtain ⟨t, us, rfl, ht⟩ := hn.head_statement
    exact .inr ⟨t, _, rfl, .inr ht⟩

theorem paren_of_expression (h : Derives (.expression least n) ts) (hw : Follows top m w)
    {rest : List Token} (happ : ts ++ w = x :: rest) (hx : x.lexeme = .mark .leftParen) :
    ∃ n' us z w', rest = us ++ z :: w' ∧ Derives (.expression 0 n') us ∧ z.lexeme =
    .mark .rightParen ∧ Follows top m w' := by
  obtain ⟨n', u, w', happ', hu, hw'⟩ := h.operand_follows hw
  rw [happ] at happ'
  cases hu with
  | unary ht =>
    obtain ⟨rfl, -⟩ := List.cons.inj happ'
    rw [hx] at ht
    cases ht
  | primary hp =>
    cases hp with
    | group _ hn hz =>
      obtain ⟨rfl, rfl⟩ := List.cons.inj happ'
      exact ⟨_, _, _, w', by simp, hn, hz, hw'⟩
    | ident ht | callEmpty ht | call ht | number ht | collection ht | sequence ht | builtin ht
    | funcLit ht =>
      obtain ⟨rfl, -⟩ := List.cons.inj happ'
      rw [hx] at ht
      cases ht

theorem function_of_expression (h : Derives (.expression least n) ts) (hw : Follows top m w)
    {rest : List Token} (happ : ts ++ w = x :: rest) (hx : x.lexeme = .keyword .func) :
    ∃ ps body us w', rest = us ++ w' ∧ Derives (.function ps body) us ∧ Follows top m w' := by
  obtain ⟨n', u, w', happ', hu, hw'⟩ := h.operand_follows hw
  rw [happ] at happ'
  cases hu with
  | unary ht =>
    obtain ⟨rfl, -⟩ := List.cons.inj happ'
    rw [hx] at ht
    cases ht
  | primary hp =>
    cases hp with
    | funcLit _ hf =>
      obtain ⟨rfl, rfl⟩ := List.cons.inj happ'
      exact ⟨_, _, _, w', rfl, hf, hw'⟩
    | ident ht | callEmpty ht | call ht | number ht | group ht | collection ht | sequence ht
    | builtin ht =>
      obtain ⟨rfl, -⟩ := List.cons.inj happ'
      rw [hx] at ht
      cases ht

theorem head_function (h : Derives (.function ps ns) ts) :
    ∃ t us, ts = t :: us ∧ t.lexeme = .mark .leftParen := by
  cases h with
  | function hps =>
    cases hps with
    | paramsEmpty hx | params hx => exact ⟨_, _, rfl, hx⟩

end Derives

theorem Follows.paren {m : Nat} {w : List Token} (h : Follows top m (x :: w))
    (hx : x.lexeme = .mark .leftParen) :
    ∃ n us z w', w = us ++ z :: w' ∧ Derives (.expression 0 n) us ∧ z.lexeme = .mark .rightParen ∧
      Follows top m w' := by
  generalize hl : x :: w = l at h
  cases h with
  | operator hj =>
    obtain ⟨rfl, -⟩ := List.cons.inj hl
    rw [hj.lexeme.1] at hx
    cases hx
  | block hb hm =>
    cases hb with
    | empty => cases hl
    | separator ht =>
      obtain ⟨rfl, -⟩ := List.cons.inj hl
      rw [hx] at ht
      cases ht
    | cons hs hr =>
      cases hs with
      | plain hn => exact hn.paren_of_expression (.block hr (Nat.le_trans (by simp) hm)) hl.symm hx
      | conditional ht | alternative ht | whileLoop ht | forLoop ht | forStep ht | ret ht
      | definition ht | host ht =>
        obtain ⟨rfl, -⟩ := List.cons.inj hl
        rw [hx] at ht
        cases ht

namespace Parse

/-! ## Runs that succeed -/

/-- On the tokens `ts` the run gives a result and leaves tokens as in `Q`, or it fails. -/
def Settles {α : Type} (e : Token) : Bool → Parse α → List Token → (α → List Token → Prop) → Prop
  | true, x, ts, Q => ∃ a us, x (Stream.of e ts) = .ok (a, Stream.of e us) ∧ Q a us
  | false, x, ts, _ => ∃ d, x (Stream.of e ts) = .error d

namespace Settles

variable {α β : Type} {good good' : Bool} {x y : Parse α} {ts : List Token}
  {P : α → List Token → Prop} {Q : β → List Token → Prop}

theorem mono {P' : α → List Token → Prop} (h : Settles e good x ts P)
    (hp : ∀ a us, P a us → P' a us) :
    Settles e good x ts P' := by
  cases good with
  | true =>
    obtain ⟨a, us, hx, hP⟩ := h
    exact ⟨a, us, hx, hp a us hP⟩
  | false => exact h

theorem cast (h : Settles e good x ts P) (hgood : good = good') :
    Settles e good' x ts P := hgood ▸ h

theorem bind {f : α → Parse β} (hx : Settles e good x ts P)
    (hf : ∀ a us, P a us → Settles e good' (f a) us Q) :
    Settles e (good && good') (x >>= f) ts Q := by
  cases good with
  | true =>
    obtain ⟨a, us, hx, hP⟩ := hx
    have hf := hf a us hP
    cases good' with
    | true =>
      obtain ⟨b, vs, hb, hQ⟩ := hf
      exact ⟨b, vs, by rw [bind_run, hx]; exact hb, hQ⟩
    | false =>
      obtain ⟨d, hd⟩ := hf
      exact ⟨d, by rw [bind_run, hx]; exact hd⟩
  | false =>
    obtain ⟨d, hd⟩ := hx
    exact ⟨d, by rw [bind_run, hd]⟩

theorem sure {f : α → Parse β} (hx : Settles e true x ts P)
    (hf : ∀ a us, P a us → Settles e good (f a) us Q) : Settles e good (x >>= f) ts Q := by
  simpa using hx.bind hf

theorem finish {f : α → Parse β} (hx : Settles e good x ts P)
    (hf : ∀ a us, P a us → Settles e true (f a) us Q) : Settles e good (x >>= f) ts Q :=
  (hx.bind hf).cast (Bool.and_true good)

theorem map {f : α → β} (hx : Settles e good x ts P) (hf : ∀ a us, P a us → Q (f a) us) :
    Settles e good (x >>= fun a => pure (f a)) ts Q :=
  hx.finish fun a us hP => ⟨f a, us, rfl, hf a us hP⟩

theorem pure {a : α} (h : P a ts) : Settles e true (pure a) ts P := ⟨a, ts, rfl, h⟩

theorem of_eq (h : x (Stream.of e ts) = y (Stream.of e ts)) (hy : Settles e good y ts P) :
    Settles e good x ts P := by
  cases good with
  | true =>
    obtain ⟨a, us, hy, hP⟩ := hy
    exact ⟨a, us, h.trans hy, hP⟩
  | false =>
    obtain ⟨d, hd⟩ := hy
    exact ⟨d, h.trans hd⟩

theorem current {f : Token → Parse β} (h : Settles e good (f (Stream.of e ts).tok) ts Q) :
    Settles e good (current >>= f) ts Q := of_eq (y := f (Stream.of e ts).tok) rfl h

theorem peek {f : Token → Parse β} (h : Settles e good (f t) (t :: ts) Q) :
    Settles e good (Parse.current >>= f) (t :: ts) Q := .current h

theorem of_agree {R : Stream → Prop} (h : Agree x y (Stream.of e ts) R)
    (hy : Settles e good y ts P) :
    Settles e good x ts P := of_eq h.1 hy

theorem advance {f : Unit → Parse β} (h : Settles e good (f ()) ts Q) :
    Settles e good (advance >>= f) (t :: ts) Q :=
  sure (P := fun _ us => us = ts) ⟨(), ts, advance_of e t ts, rfl⟩ fun _ _ hus => hus ▸ h

theorem expect {t : Token} {place : Place} {f : Token → Parse β} (hk : t.kind = kind)
    (h : Settles e good (f t) ts Q) : Settles e good (Parse.expect kind place >>= f)
    (t :: ts) Q := by
  have hrun : Parse.expect kind place (Stream.of e (t :: ts)) = .ok (t, Stream.of e ts) := by
    change (if t.kind = kind then _ else _ : Parse Token) _ = _
    rw [if_pos hk, bind_run, advance_of]
    rfl
  refine sure (P := fun a us => a = t ∧ us = ts) ⟨t, ts, hrun, rfl, rfl⟩ ?_
  rintro _ _ ⟨rfl, rfl⟩
  exact h

theorem expectName {place : Place} {f : String → Parse β} {v : String}
    (ht : t.lexeme = .identifier v) (h : Settles e good (f v) ts Q) :
    Settles e good (Parse.expectName place >>= f) (t :: ts) Q := by
  have hk : t.kind = .identifier := by rw [Token.kind, ht]; rfl
  refine sure (P := fun a us => a = v ∧ us = ts) (.expect hk (.pure ⟨by rw [ht]; rfl, rfl⟩)) ?_
  rintro _ _ ⟨rfl, rfl⟩
  exact h

theorem expectAssign {o : Operator} {f : Unit → Parse β} (ht : t.lexeme = .operator o)
    (hop : o.spelling = "=") (h : Settles e good (f ()) ts Q) :
    Settles e good (Parse.expectAssign >>= f) (t :: ts) Q := by
  refine sure (P := fun _ us => us = ts) (.current ?_) fun _ _ hus => hus ▸ h
  obtain ⟨spelling, category, precedence⟩ := o
  subst hop
  rw [show (Stream.of e (t :: ts)).tok.lexeme = _ from ht]
  exact ⟨(), ts, advance_of e t ts, rfl⟩

theorem behind_none {p : Token → Parse α} {f : Option α → Parse β}
    (hk : (Stream.of e ts).tok.kind ≠ kind) (h : Settles e good (f none) ts Q) :
    Settles e good (behind? kind p >>= f) ts Q := by
  have hrun : behind? kind p (Stream.of e ts) = .ok (none, Stream.of e ts) := by
    change (if (Stream.of e ts).tok.kind = kind then _ else _ : Parse (Option α)) _ = _
    rw [if_neg hk]
    rfl
  refine sure (P := fun a us => a = none ∧ us = ts) ⟨none, ts, hrun, rfl, rfl⟩ ?_
  rintro _ _ ⟨rfl, rfl⟩
  exact h

theorem behind_some {p : Token → Parse α} {f : Option α → Parse β}
    (hk : t.kind = kind) (hp : Settles e good (p t) ts P)
    (hf : ∀ a us, P a us → Settles e good' (f (some a)) us Q) :
    Settles e (good && good') (behind? kind p >>= f) (t :: ts) Q := by
  refine bind (P := fun a us => ∃ b, a = some b ∧ P b us) (.peek ?_) ?_
  · rw [if_pos hk]
    exact .advance (hp.map fun a us hP => ⟨a, rfl, hP⟩)
  · rintro _ us ⟨a, rfl, hP⟩
    exact hf a us hP

end Settles

abbrev Succeeds {α : Type} (e : Token) (x : Parse α) (ts : List Token) (Q : List Token → Prop) :
    Prop :=
  Settles e true x ts fun _ => Q

section Succeeds

variable {α β : Type}

namespace Succeeds

variable {x y : Parse α} {ts : List Token} {P Q : List Token → Prop}

theorem mono (h : Succeeds e x ts P) (hp : ∀ us, P us → Q us) : Succeeds e x ts Q :=
  Settles.mono h fun _ => hp

theorem bind {f : α → Parse β} (hx : Succeeds e x ts P)
    (hf : ∀ a us, P us → Succeeds e (f a) us Q) :
    Succeeds e (x >>= f) ts Q := Settles.sure hx hf

theorem behind_some {t : Token} {p : Token → Parse α} {f : Option α → Parse β}
    (hk : t.kind = kind) (hp : Succeeds e (p t) ts P) (hf : ∀ a us, P us → Succeeds e (f a) us Q) :
    Succeeds e (behind? kind p >>= f) (t :: ts) Q :=
  Settles.behind_some hk hp fun a => hf (some a)

end Succeeds

end Succeeds

theorem kind_mark (h : t.lexeme = .mark m) : t.kind = .mark m := by
  rw [Token.kind, h]; rfl

theorem kind_keyword {k : Keyword} (h : t.lexeme = .keyword k) : t.kind = .keyword k := by
  rw [Token.kind, h]; rfl

@[simp] theorem tok_of (e t : Token) (ts : List Token) : (Stream.of e (t :: ts)).tok = t := rfl

def Halts (e : Token) (R : List Token) : Prop :=
  binaryOperator? (Stream.of e R).tok = none ∧ (Stream.of e R).tok.kind ≠ .mark .leftParen

theorem halts_of_mark (hz : z.lexeme = .mark m) (hm : m ≠ .leftParen) : Halts e (z :: R) := by
  refine ⟨by simp [binaryOperator?, hz], ?_⟩
  rw [tok_of, kind_mark hz]
  simpa using hm

theorem halts_of_keyword {k : Keyword} (hz : z.lexeme = .keyword k) : Halts e (z :: R) := by
  refine ⟨by simp [binaryOperator?, hz], ?_⟩
  rw [tok_of, kind_keyword hz]
  simp

theorem binaryOperator?_of_block {ns : List Node} {b : List Token}
    (hb : Derives (.block top ns) b) (hR : Halts e R) :
    binaryOperator? (Stream.of e (b ++ R)).tok = none := by
  obtain rfl | ⟨t, us, rfl, ht | ht⟩ := hb.head_block
  · exact hR.1
  · simp [binaryOperator?, ht]
  · rw [Option.eq_none_iff_forall_ne_some]
    intro op (hop : t.Joins op)
    obtain ⟨hl, hc⟩ := hop.lexeme
    rw [hl] at ht
    exact hc (of_decide_eq_true ht)

structure Closes (e : Token) (closers : List TokenKind) (R : List Token) : Prop where
  mem : (Stream.of e R).tok.kind ∈ closers
  only : ∀ k ∈ closers, k = .keyword .orElse ∨ k = .keyword .done ∨ k = .mark .rightBrace

theorem closes_done (hz : z.lexeme = .keyword .done) : Closes e [.keyword .done] (z :: R) :=
  ⟨by simp [kind_keyword hz], by simp⟩

theorem closes_branch (hz : z.lexeme = .keyword .orElse ∨ z.lexeme = .keyword .done) :
    Closes e [.keyword .orElse, .keyword .done] (z :: R) :=
  ⟨by rcases hz with hz | hz <;> simp [kind_keyword hz], by simp⟩

theorem closes_brace (hz : z.lexeme = .mark .rightBrace) : Closes e [.mark .rightBrace] (z :: R) :=
  ⟨by simp [kind_mark hz], by simp⟩

theorem Closes.halts (h : Closes e closers R) : Halts e R := by
  have hk := h.only _ h.mem
  refine ⟨?_, by rintro hp; simp [hp] at hk⟩
  rw [Option.eq_none_iff_forall_ne_some]
  intro op (hop : Token.Joins _ op)
  rw [Token.kind, hop.lexeme.1] at hk
  simp [Lexeme.kind] at hk

theorem Closes.not_mem (h : Closes e closers R)
    (ht : t.lexeme = .mark .semicolon ∨ t.lexeme.opensStatement = true) :
    t.kind ∉ closers := by
  intro hmem
  unfold Token.kind at hmem
  have hk := h.only _ hmem
  cases hl : t.lexeme <;> simp_all [Lexeme.kind, Lexeme.opensStatement, Lexeme.opensExpression]
  rcases hk with rfl | rfl <;> simp_all

def Leaves (top : Bool) (m l : Nat) (R us : List Token) : Prop :=
  ∃ w, us = w ++ R ∧ Follows top m w ∧ w.length ≤ l

def LeavesBlock (top : Bool) (l : Nat) (R us : List Token) : Prop :=
  ∃ ns b, us = b ++ R ∧ Derives (.block top ns) b ∧ b.length ≤ l

structure Recognizes (e : Token) (N : Nat) : Prop where
  statement {top : Bool} {n : Node} {ns : List Node} {x b R : List Token} :
    Derives (.statement top n) x → Derives (.block top ns) b → Halts e R → x.length + b.length < N →
    Succeeds e (Calls.ample.statement !top) (x ++ (b ++ R)) (LeavesBlock top b.length R)
  block {ns : List Node} {b R : List Token} (owner : Token) {closers : List TokenKind} :
    Derives (.block false ns) b → Closes e closers R → b.length < N →
    Succeeds e (Calls.ample.block owner closers) (b ++ R) (· = R)
  expression {least : Nat} {top : Bool} {n : Node} {ns : List Node} {x b R : List Token} :
    Derives (.expression least n) x → Derives (.block top ns) b → Halts e R →
      x.length + b.length < N →
    Succeeds e Calls.ample.expression (x ++ (b ++ R)) (LeavesBlock top b.length R)
  binary {top : Bool} {m : Nat} {w R : List Token} (least : Nat) (lhs : Node) :
    Follows top m w → Halts e R → w.length < N →
    Succeeds e (Calls.ample.binary least lhs) (w ++ R) fun us => Leaves top m w.length R us ∧
      ∀ op, (Stream.of e us).tok.Joins op → op.precedence < least
  unary {top : Bool} {m : Nat} {n : Node} {u w R : List Token} : Derives (.unary n) u →
    Follows top m w → Halts e R → u.length + w.length < N →
    Succeeds e Calls.ample.unary (u ++ (w ++ R)) (Leaves top m w.length R)
  primary {top : Bool} {m : Nat} {n : Node} {p w R : List Token} : Derives (.primary n) p →
    Follows top m w → Halts e R → p.length + w.length < N →
    Succeeds e Calls.ample.primary (p ++ (w ++ R)) (Leaves top m w.length R)
  arguments {ns : List Node} {x R : List Token} {z : Token} : Derives (.arguments ns) x →
    z.lexeme = .mark .rightParen → x.length < N → Succeeds e Calls.ample.arguments
      (x ++ z :: R) (· = R)
  elements {ns : List Node} {x R : List Token} {z : Token} {closer : Mark} :
    Derives (.elements ns) x →
    z.lexeme = .mark closer → closer ≠ .leftParen → closer ≠ .comma → x.length < N →
    Succeeds e (Calls.ample.elements closer) (x ++ z :: R) (· = R)
  doArguments {ns : List Node} {x R : List Token} {z : Token} : Derives (.further ns) x →
    z.lexeme = .mark .rightParen → x.length < N → Succeeds e Calls.ample.doArguments
      (x ++ z :: R) (· = R)
  function {ps : List String} {body : List Node} {x R : List Token} (place : Place) :
    Derives (.function ps body) x → x.length < N → Succeeds e (Calls.ample.function place)
      (x ++ R) (· = R)
  names {xs : List String} {x R : List Token} {z : Token} : Derives (.names xs) x →
    z.lexeme = .mark .rightParen → x.length < N → Succeeds e Calls.ample.names
      (x ++ z :: R) (· = z :: R)

theorem ne_mark_of_opens (h : ∃ t vs, us = t :: vs ∧ t.lexeme.opensExpression = true)
    (hm : (Lexeme.mark m).opensExpression = false) :
    (Stream.of e (us ++ R)).tok.kind ≠ .mark m := by
  obtain ⟨t, vs, rfl, ht⟩ := h
  intro hk
  have hl : t.lexeme = .mark m := lexeme_of_mark hk
  rw [hl, hm] at ht
  cases ht

theorem LeavesBlock.eq_of_zero (h : LeavesBlock top 0 R us) : us = R := by
  obtain ⟨_, b, rfl, -, hb⟩ := h
  rw [List.length_eq_zero_iff.mp (Nat.le_zero.mp hb)]
  rfl

theorem Leaves.eq_of_zero {m : Nat} (h : Leaves top m 0 R us) : us = R := by
  obtain ⟨w, rfl, -, hw⟩ := h
  rw [List.length_eq_zero_iff.mp (Nat.le_zero.mp hw)]
  rfl

namespace Recognizes

variable {N m least : Nat} {n : Node} {ns : List Node} {x b w : List Token}

theorem halts_of_further (hx : Derives (.further ns) x) (hz : z.lexeme = .mark .rightParen) :
    Halts e (x ++ z :: R) := by
  cases hx with
  | furtherNil => exact halts_of_mark hz (by simp)
  | furtherCons hc => exact halts_of_mark hc (by simp)

theorem comma_ne_of_block (hb : Derives (.block top ns) b)
    (hc : (Stream.of e R).tok.kind ≠ .mark .comma) :
    (Stream.of e (b ++ R)).tok.kind ≠ .mark .comma := by
  obtain rfl | ⟨t, us, rfl, ht⟩ := hb.head_block
  · exact hc
  · intro hk
    have hl : t.lexeme = .mark .comma := lexeme_of_mark hk
    rw [hl] at ht
    rcases ht with ht | ht <;> cases ht

section

variable (ih : Recognizes e N)

include ih

theorem exactly (hx : Derives (.expression least n) x) (hR : Halts e R)
    (hN : x.length < N) : Succeeds e Calls.ample.expression (x ++ R) (· = R) := by
  have hnil : Derives (.block true []) [] := .empty
  exact (ih.expression hx hnil hR (by simpa using hN)).mono fun _ => LeavesBlock.eq_of_zero

theorem named {name : String} (hw : Follows top m w) (hR : Halts e R) (hN : w.length ≤ N) :
    Succeeds e (Calls.ample.named t name) (w ++ R) (Leaves top m w.length R) := by
  refine .current ?_
  split
  · rename_i hk
    cases w with
    | nil => exact absurd hk hR.2
    | cons y w =>
      obtain ⟨n, us, z, w', rfl, hn, hz, hw'⟩ := hw.paren (lexeme_of_mark hk)
      simp only [List.length_cons, List.length_append] at hN
      rw [List.cons_append, List.append_assoc, List.cons_append]
      refine .advance (.current ?_)
      rw [if_neg (ne_mark_of_opens hn.head_expression rfl)]
      refine (ih.arguments (.argument hn) hz (by omega)).bind fun _ us hus => .pure ?_
      exact ⟨w', hus, hw', by simp; omega⟩
  · exact .pure ⟨w, rfl, hw, Nat.le_refl _⟩

theorem combine {op : Operator} {lhs operand : Node}
    (hw : Follows top m w) (hR : Halts e R) (hN : w.length < N) :
    Succeeds e (Calls.ample.combine t op least lhs operand)
    (w ++ R) fun us => Leaves top m w.length R us ∧
      ∀ op, (Stream.of e us).tok.Joins op → op.precedence < least := by
  have hrest (lhs : Node) {us : List Token} (h : Leaves top m w.length R us) :
      Succeeds e (Calls.ample.binary least lhs) us fun us => Leaves top m w.length R us ∧
        ∀ op, (Stream.of e us).tok.Joins op → op.precedence < least := by
    obtain ⟨w', rfl, hw', hle⟩ := h
    refine (ih.binary least lhs hw' hR (by omega)).mono fun vs h => ⟨?_, h.2⟩
    obtain ⟨w'', rfl, hw'', hle'⟩ := h.1
    exact ⟨w'', rfl, hw'', by omega⟩
  refine .current ?_
  dsimp only
  split
  · exact (ih.binary _ operand hw hR hN).bind fun r us h => hrest _ h.1
  · exact hrest _ ⟨w, rfl, hw, Nat.le_refl _⟩

theorem binary_zero (lhs : Node) (hw : Follows top m w) (hR : Halts e R)
    (hN : w.length < N) : Succeeds e (Calls.ample.binary 0 lhs) (w ++ R) (LeavesBlock top m R) := by
  refine (ih.binary 0 lhs hw hR hN).mono ?_
  rintro us ⟨⟨w', hus, hw', _⟩, hmax⟩
  subst hus
  cases hw' with
  | block hb hm => exact ⟨_, _, rfl, hb, hm⟩
  | operator hj => exact absurd (hmax _ hj) (Nat.not_lt_zero _)

theorem params (place : Place) (hx : Derives (.params ps) x)
    (hN : x.length ≤ N) : Succeeds e (Calls.ample.params place) (x ++ R) (· = R) := by
  cases hx with
  | paramsEmpty hx hz =>
    refine .expect (kind_mark hx) (.peek ?_)
    rw [if_pos (kind_mark hz)]
    exact Succeeds.bind (Settles.pure rfl) fun _ us hus => hus ▸ Settles.expect
      (kind_mark hz) (.pure rfl)
  | params hx hns hz =>
    simp only [List.length_cons, List.length_append] at hN
    simp only [List.cons_append, List.append_assoc, List.nil_append]
    refine .expect (kind_mark hx) (.current ?_)
    split
    · rename_i hk
      cases hns with
      | name ht | nameCons ht =>
        rw [List.cons_append, tok_of, Token.kind, ht] at hk
        cases hk
    · refine (ih.names hns hz (by omega)).bind ?_
      rintro _ _ rfl
      exact .expect (kind_mark hz) (.pure rfl)

theorem header {β : Type} {owner : Token}
    {f : Node → List Node → Parse β} {Q : List Token → Prop} (hx : Derives (.expression least n) x)
    (hb : Derives (.block false ns) b) (hR : Closes e closers R) (hN : x.length + b.length < N)
    (h : ∀ c body, Succeeds e (f c body) R Q) :
    Succeeds e (Calls.ample.expression >>= fun c => Calls.ample.block owner closers >>= f c)
      (x ++ (b ++ R)) Q := by
  refine (ih.expression hx hb hR.halts hN).bind fun c us hus => ?_
  obtain ⟨ns', b', rfl, hb', hle⟩ := hus
  refine (ih.block owner hb' hR (by omega)).bind ?_
  rintro body _ rfl
  exact h c body

variable (he : e.lexeme = .endOfInput)

include he

theorem collection {start : Token} {closer : Mark}
    (hstart : start.kind ≠ .endOfInput) (hx : Derives (.elements ns) x)
    (hz : z.lexeme = .mark closer)
    (hp : closer ≠ .leftParen) (hc : closer ≠ .comma)
    (hne : ∀ t us, x = t :: us → t.lexeme ≠ .mark closer)
    (hN : x.length < N) :
    Succeeds e (Calls.ample.collection start closer) (start :: (x ++ z :: R)) (· = R) := by
  refine .of_agree ((alike_unfold _).collection _ _ _ (closed_of he _) hstart (Nat.le_refl _)) ?_
  refine .advance (.current ?_)
  obtain ⟨t, us, rfl, -⟩ := hx.head_elements
  split
  · rename_i hk
    exact absurd (lexeme_of_mark hk) (hne t us rfl)
  · exact (ih.elements hx hz hp hc hN).bind fun _ us hus => .pure hus

theorem primary_succ {p : List Token}
    (hd : Derives (.primary n) p) (hw : Follows top m w) (hR : Halts e R)
    (hN : p.length + w.length ≤ N) :
    Succeeds e Calls.ample.primary (p ++ (w ++ R)) (Leaves top m w.length R) := by
  have hleaves {us : List Token} (h : us = w ++ R) : Leaves top m w.length R us :=
    ⟨w, h, hw, Nat.le_refl _⟩
  refine .of_eq (ample_primary _ (closed_of he _)) (.current ?_)
  cases hd with
  | ident ht =>
    simp only [List.cons_append, List.nil_append, tok_of, ht]
    exact .advance (ih.named hw hR (by simp at hN; omega))
  | callEmpty ht hx hz =>
    simp only [List.cons_append, List.nil_append, tok_of, ht]
    refine .advance (.peek ?_)
    rw [if_pos (kind_mark hx)]
    refine .advance (.peek ?_)
    rw [if_pos (kind_mark hz)]
    exact .advance (.pure (hleaves rfl))
  | call ht hx hargs hz =>
    simp only [List.length_cons, List.length_append] at hN
    simp only [List.cons_append, List.append_assoc, List.nil_append, tok_of, ht]
    refine .advance (.peek ?_)
    rw [if_pos (kind_mark hx)]
    refine .advance (.current ?_)
    rw [if_neg (ne_mark_of_opens hargs.head_arguments rfl)]
    exact (ih.arguments hargs hz (by omega)).bind fun _ us hus => .pure (hleaves hus)
  | number ht =>
    simp only [List.cons_append, List.nil_append, tok_of, ht]
    exact .advance (.pure (hleaves rfl))
  | group hx hn hz =>
    simp only [List.length_cons, List.length_append] at hN
    simp only [List.cons_append, List.append_assoc, List.nil_append, tok_of, hx]
    refine .advance ((ih.exactly hn (halts_of_mark hz (by simp)) (by omega)).bind ?_)
    rintro _ _ rfl
    exact .expect (kind_mark hz) (.pure (hleaves rfl))
  | collection hx hns hz =>
    simp only [List.length_cons, List.length_append] at hN
    simp only [List.cons_append, List.append_assoc, List.nil_append, tok_of, hx]
    refine (ih.collection he (by rw [kind_mark hx]; simp) hns hz (by simp) (by simp) ?_
      (by omega)).mono fun _ => hleaves
    rintro t us rfl ht
    obtain ⟨_, _, heq, ho⟩ := hns.head_elements
    obtain ⟨rfl, -⟩ := List.cons.inj heq
    rw [ht] at ho
    cases ho
  | sequence hx hns hfirst hz =>
    simp only [List.length_cons, List.length_append] at hN
    simp only [List.cons_append, List.append_assoc, List.nil_append, tok_of, hx]
    exact (ih.collection he (by rw [kind_mark hx]; simp) hns hz (by simp) (by simp) hfirst
      (by omega)).mono fun _ => hleaves
  | builtin ht hx hb hargs hz =>
    simp only [List.length_cons, List.length_append] at hN
    simp only [List.cons_append, List.append_assoc, List.nil_append, tok_of, ht]
    refine .advance (.expect (kind_mark hx) (.current ?_))
    simp only [tok_of, hb]
    exact .advance ((ih.doArguments hargs hz (by omega)).bind fun _ us hus => .pure (hleaves hus))
  | funcLit ht hf =>
    simp only [List.length_cons] at hN
    simp only [List.cons_append, tok_of, ht]
    exact .advance ((ih.function _ hf (by omega)).bind fun _ us hus => .pure (hleaves hus))

theorem unary_succ {u : List Token}
    (hd : Derives (.unary n) u) (hw : Follows top m w) (hR : Halts e R)
    (hN : u.length + w.length ≤ N) :
    Succeeds e Calls.ample.unary (u ++ (w ++ R)) (Leaves top m w.length R) := by
  refine .of_eq (ample_unary _ (closed_of he _)) (.current ?_)
  cases hd with
  | unary ht hc hu =>
    simp only [List.length_cons] at hN
    simp only [List.cons_append, tok_of, ht, if_pos hc]
    exact .advance ((ih.unary hu hw hR (by omega)).bind fun _ _ h => .pure h)
  | primary hp =>
    split
    · rename_i op hop
      obtain ⟨t, us, rfl, -, ht⟩ := hp.head_primary
      exact absurd hop (ht op)
    · exact ih.primary_succ he hp hw hR hN

theorem binary_succ (least : Nat) (lhs : Node)
    (hw : Follows top m w) (hR : Halts e R) (hN : w.length ≤ N) :
    Succeeds e (Calls.ample.binary least lhs) (w ++ R) fun us => Leaves top m w.length R us ∧
      ∀ op, (Stream.of e us).tok.Joins op → op.precedence < least := by
  refine .of_eq (ample_binary _ _ _ (closed_of he _)) (.current ?_)
  cases hw with
  | block hb hm =>
    have hnone := binaryOperator?_of_block hb hR
    rw [hnone]
    refine .pure ⟨⟨_, rfl, .block hb hm, Nat.le_refl _⟩, fun op hop => ?_⟩
    have hop : binaryOperator? _ = some op := hop
    rw [hnone] at hop
    cases hop
  | @operator t op n u w hj hu hw =>
    have hsome : binaryOperator? t = some op := hj
    simp only [List.cons_append, tok_of, hsome]
    split
    · rename_i hlt
      refine .pure ⟨⟨_, rfl, .operator hj hu hw, Nat.le_refl _⟩, fun op' hop => ?_⟩
      have hop : binaryOperator? t = some op' := hop
      rw [hsome] at hop
      cases hop
      exact hlt
    · simp only [List.length_cons, List.length_append] at hN
      rw [List.append_assoc]
      refine .advance ((ih.unary hu hw hR (by omega)).bind fun operand us h => ?_)
      obtain ⟨w', rfl, hw', hle⟩ := h
      refine (ih.combine hw' hR (by omega)).mono fun vs h => ⟨?_, h.2⟩
      obtain ⟨w'', rfl, hw'', hle'⟩ := h.1
      exact ⟨w'', rfl, hw'', by simp; omega⟩

theorem expression_succ
    (hx : Derives (.expression least n) x) (hb : Derives (.block top ns) b) (hR : Halts e R)
    (hN : x.length + b.length ≤ N) :
    Succeeds e Calls.ample.expression (x ++ (b ++ R)) (LeavesBlock top b.length R) := by
  refine .of_eq (ample_expression _ (closed_of he _)) ?_
  obtain ⟨n', u, w, happ, hu, hw⟩ := hx.operand_follows (.block hb (Nat.le_refl _))
  have hlen := congrArg List.length happ
  obtain ⟨t, us, hus, -⟩ := hu.head_unary
  simp only [List.length_append] at hlen
  have hpos : 0 < u.length := by simp [hus]
  rw [← List.append_assoc, happ, List.append_assoc]
  refine (ih.unary_succ he hu hw hR (by omega)).bind fun lhs us h => ?_
  obtain ⟨w', rfl, hw', hle⟩ := h
  exact ih.binary_zero lhs hw' hR (by omega)

theorem names_succ {xs : List String}
    (hx : Derives (.names xs) x) (hz : z.lexeme = .mark .rightParen) (hN : x.length ≤ N) :
    Succeeds e Calls.ample.names (x ++ z :: R) (· = z :: R) := by
  refine .of_eq (ample_names _ (closed_of he _)) ?_
  cases hx with
  | name ht =>
    refine .expectName ht (.peek ?_)
    rw [if_neg (by rw [kind_mark hz]; simp)]
    exact .pure rfl
  | nameCons ht hc hns =>
    simp only [List.length_cons] at hN
    refine .expectName ht (.peek ?_)
    rw [if_pos (kind_mark hc)]
    exact .advance ((ih.names hns hz (by omega)).bind fun _ _ h => .pure h)

theorem function_succ (place : Place) (hx : Derives (.function ps ns) x) (hN : x.length ≤ N) :
    Succeeds e (Calls.ample.function place) (x ++ R) (· = R) := by
  refine .of_eq (ample_function _ _ (closed_of he _)) ?_
  cases hx with
  | function hps hopen hbody hclose =>
    simp only [List.length_cons, List.length_append] at hN
    simp only [List.cons_append, List.append_assoc, List.nil_append]
    refine (ih.params place hps (by omega)).bind ?_
    rintro _ _ rfl
    refine .expect (kind_mark hopen) ((ih.block _ hbody (closes_brace hclose) (by omega)).bind ?_)
    rintro _ _ rfl
    exact .expect (kind_mark hclose) (.pure rfl)

theorem arguments_succ
    (hx : Derives (.arguments ns) x) (hz : z.lexeme = .mark .rightParen) (hN : x.length ≤ N) :
    Succeeds e Calls.ample.arguments (x ++ z :: R) (· = R) := by
  refine .of_eq (ample_arguments _ (closed_of he _)) ?_
  cases hx with
  | argument hn =>
    have hnil : Derives (.block true []) [] := .empty
    refine ((ih.expression_succ he hn hnil (halts_of_mark hz (by simp)) (by simpa using hN)).mono
      fun _ => LeavesBlock.eq_of_zero).bind ?_
    rintro _ _ rfl
    refine .peek ?_
    simp only [hz]
    exact .advance (.pure rfl)
  | argumentCons hn hc hns =>
    simp only [List.length_cons, List.length_append] at hN
    rw [List.append_assoc, List.cons_append]
    refine (ih.exactly hn (halts_of_mark hc (by simp)) (by omega)).bind ?_
    rintro _ _ rfl
    refine .peek ?_
    simp only [hc]
    exact .advance ((ih.arguments hns hz (by omega)).bind fun _ _ h => .pure h)

theorem elements_succ {closer : Mark}
    (hx : Derives (.elements ns) x) (hz : z.lexeme = .mark closer) (hp : closer ≠ .leftParen)
    (hc : closer ≠ .comma) (hN : x.length ≤ N) :
    Succeeds e (Calls.ample.elements closer) (x ++ z :: R) (· = R) := by
  refine .of_eq (ample_elements _ _ (closed_of he _)) ?_
  cases hx with
  | element hn =>
    refine ((ih.primary_succ he hn follows_nil (halts_of_mark hz hp) (by simpa using hN)).mono
      fun _ => Leaves.eq_of_zero).bind ?_
    rintro _ _ rfl
    refine .peek ?_
    rw [if_neg (by rw [kind_mark hz]; simpa using hc), if_pos (kind_mark hz)]
    exact .advance (.pure rfl)
  | elementCons hn hcomma hns =>
    simp only [List.length_cons, List.length_append] at hN
    rw [List.append_assoc, List.cons_append]
    refine ((ih.primary hn follows_nil (halts_of_mark hcomma (by simp)) (by simp; omega)).mono
      fun _ => Leaves.eq_of_zero).bind ?_
    rintro _ _ rfl
    refine .peek ?_
    rw [if_pos (kind_mark hcomma)]
    exact .advance ((ih.elements hns hz hp hc (by omega)).bind fun _ _ h => .pure h)

theorem doArguments_succ (hx : Derives (.further ns) x) (hz : z.lexeme = .mark .rightParen)
    (hN : x.length ≤ N) :
    Succeeds e Calls.ample.doArguments (x ++ z :: R) (· = R) := by
  refine .of_eq (ample_doArguments _ (closed_of he _)) (.current ?_)
  cases hx with
  | furtherNil =>
    simp only [List.nil_append, tok_of, hz]
    exact .advance (.pure rfl)
  | furtherCons hc hn hns =>
    simp only [List.length_cons, List.length_append] at hN
    simp only [List.cons_append, List.append_assoc, tok_of, hc]
    refine .advance ((ih.exactly hn (halts_of_further hns hz) (by omega)).bind ?_)
    rintro _ _ rfl
    exact (ih.doArguments hns hz (by omega)).bind fun _ _ h => .pure h

/-! ## Statements -/

theorem plain_succ (hx : Derives (.expression 0 n) x) (hb : Derives (.block top ns) b)
    (hR : Halts e R)
    (hN : x.length + b.length ≤ N) (nested : Bool) :
    Succeeds e (Calls.ample.statement nested) (x ++ (b ++ R)) (LeavesBlock top b.length R) := by
  refine .of_eq (ample_statement _ _ (closed_of he _)) (.current ?_)
  obtain ⟨t, us, rfl, ht⟩ := hx.head_expression
  by_cases hf : t.lexeme = .keyword .func
  · -- The literal is followed by a parenthesis, which a definition is not.
    obtain ⟨ps, body, vs, w, happ, hfun, hw⟩ :=
      hx.function_of_expression (.block hb (Nat.le_refl _)) (List.cons_append ..) hf
    obtain ⟨y, ys, rfl, hy⟩ := hfun.head_function
    have hlen := congrArg List.length happ
    simp only [List.length_append, List.length_cons] at hlen hN
    simp only [List.cons_append, tok_of, hf]
    have happ' : us ++ (b ++ R) = y :: ys ++ (w ++ R) := by
      rw [← List.append_assoc, ← List.append_assoc]
      exact congrArg (· ++ R) happ
    rw [happ']
    refine .advance (.current ?_)
    simp only [List.cons_append, tok_of, hy]
    refine (ih.function _ hfun (by simp; omega)).bind ?_
    rintro _ _ rfl
    exact ih.binary_zero _ hw hR (by omega)
  · split
    case h_8 => exact ih.expression_succ he hx hb hR hN
    case h_6 hl => exact absurd hl hf
    all_goals
      rename_i hl
      rw [show t.lexeme = _ from hl] at ht
      cases ht

theorem statement_succ
    (hx : Derives (.statement top n) x) (hb : Derives (.block top ns) b) (hR : Halts e R)
    (hN : x.length + b.length ≤ N) :
    Succeeds e (Calls.ample.statement !top) (x ++ (b ++ R)) (LeavesBlock top b.length R) := by
  have hleaves {us : List Token} (h : us = b ++ R) : LeavesBlock top b.length R us :=
    ⟨ns, b, h, hb, Nat.le_refl _⟩
  have hagree := (alike_unfold _).statement (!top) _ (closed_of he (x ++ (b ++ R))) (Nat.le_refl _)
  cases hx with
  | plain hn => exact ih.plain_succ he hn hb hR hN _
  | conditional ht hc hbody hz =>
    refine .of_agree hagree (.current ?_)
    simp only [List.length_cons, List.length_append] at hN
    simp only [List.cons_append, List.append_assoc, List.nil_append, tok_of, ht]
    refine .advance (ih.header hc hbody (closes_branch (.inr hz)) (by omega) fun _ _ => ?_)
    refine .behind_none (by rw [tok_of, kind_keyword hz]; simp) ?_
    exact .expect (kind_keyword hz) (.pure (hleaves rfl))
  | alternative ht hc hbody hy hother hz =>
    refine .of_agree hagree (.current ?_)
    simp only [List.length_cons, List.length_append] at hN
    simp only [List.cons_append, List.append_assoc, List.nil_append, tok_of, ht]
    refine .advance (ih.header hc hbody (closes_branch (.inl hy)) (by omega) fun _ _ => ?_)
    refine Succeeds.behind_some (kind_keyword hy) (ih.block _ hother (closes_done hz) (by omega)) ?_
    rintro _ _ rfl
    exact .expect (kind_keyword hz) (.pure (hleaves rfl))
  | whileLoop ht hc hbody hz =>
    refine .of_agree hagree (.current ?_)
    simp only [List.length_cons, List.length_append] at hN
    simp only [List.cons_append, List.append_assoc, List.nil_append, tok_of, ht]
    refine .advance (ih.header hc hbody (closes_done hz) (by omega) fun _ _ => ?_)
    exact .expect (kind_keyword hz) (.pure (hleaves rfl))
  | forLoop ht hv ha hop hstart hc hstop hbody hz =>
    refine .of_agree hagree (.current ?_)
    simp only [List.length_cons, List.length_append] at hN
    simp only [List.cons_append, List.append_assoc, List.nil_append, tok_of, ht]
    refine .advance (.expectName hv (.expectAssign ha hop ?_))
    refine (ih.exactly hstart (halts_of_mark hc (by simp)) (by omega)).bind ?_
    rintro _ _ rfl
    refine .expect (kind_mark hc) ((ih.expression hstop hbody (halts_of_keyword hz)
      (by omega)).bind ?_)
    rintro _ _ ⟨ns', b', rfl, hb', hle⟩
    refine .behind_none (comma_ne_of_block hb' (by rw [tok_of, kind_keyword hz]; simp)) ?_
    refine (ih.block _ hb' (closes_done hz) (by omega)).bind ?_
    rintro _ _ rfl
    exact .expect (kind_keyword hz) (.pure (hleaves rfl))
  | forStep ht hv ha hop hstart hc hstop hy hstep hbody hz =>
    refine .of_agree hagree (.current ?_)
    simp only [List.length_cons, List.length_append] at hN
    simp only [List.cons_append, List.append_assoc, List.nil_append, tok_of, ht]
    refine .advance (.expectName hv (.expectAssign ha hop ?_))
    refine (ih.exactly hstart (halts_of_mark hc (by simp)) (by omega)).bind ?_
    rintro _ _ rfl
    refine .expect (kind_mark hc) ((ih.exactly hstop (halts_of_mark hy (by simp))
      (by omega)).bind ?_)
    rintro _ _ rfl
    refine Succeeds.behind_some (kind_mark hy) (ih.expression hstep hbody (halts_of_keyword hz)
      (by omega)) ?_
    rintro _ _ ⟨ns', b', rfl, hb', hle⟩
    refine (ih.block _ hb' (closes_done hz) (by omega)).bind ?_
    rintro _ _ rfl
    exact .expect (kind_keyword hz) (.pure (hleaves rfl))
  | ret ht hn =>
    refine .of_agree hagree (.current ?_)
    simp only [List.length_cons] at hN
    simp only [List.cons_append, tok_of, ht]
    exact .advance ((ih.expression hn hb hR (by omega)).bind fun _ _ h => .pure h)
  | definition ht hv hf =>
    refine .of_agree hagree (.current ?_)
    simp only [List.length_cons] at hN
    simp only [List.cons_append, tok_of, ht]
    refine .advance (.peek ?_)
    simp only [hv]
    exact .advance ((ih.function _ hf (by omega)).bind fun _ _ h => .pure (hleaves h))
  | host ht hv hps =>
    refine .of_agree hagree (.current ?_)
    simp only [List.length_cons] at hN
    simp only [List.cons_append, tok_of, ht]
    refine .advance (.expectName hv ?_)
    exact (ih.params _ hps (by omega)).bind fun _ _ h => .pure (hleaves h)

theorem block_succ (owner : Token) (hb : Derives (.block false ns) b) (hR : Closes e closers R)
    (hN : b.length ≤ N) : Succeeds e (Calls.ample.block owner closers) (b ++ R) (· = R) := by
  refine .of_eq (ample_block _ _ _ (closed_of he _)) (.current ?_)
  cases hb with
  | empty =>
    rw [List.nil_append, if_pos (List.contains_iff_mem.mpr hR.mem)]
    exact .pure rfl
  | separator ht hb =>
    simp only [List.length_cons] at hN
    have hnot := hR.not_mem (.inl ht)
    simp only [List.cons_append, tok_of, List.contains_iff_mem, if_neg hnot, ht]
    exact .advance (ih.block owner hb hR (by omega))
  | cons hn hb =>
    obtain ⟨t, us, rfl, ht⟩ := hn.head_statement
    have hnot := hR.not_mem (.inr ht)
    simp only [List.length_append, List.length_cons] at hN
    rw [List.append_assoc]
    simp only [List.cons_append, tok_of, List.contains_iff_mem, if_neg hnot]
    split
    case h_4 =>
      refine (ih.statement_succ he hn hb hR.halts (by simp; omega)).bind fun first us hus => ?_
      obtain ⟨ns', b', rfl, hb', hle⟩ := hus
      exact (ih.block owner hb' hR (by omega)).bind fun _ _ h => .pure h
    all_goals
      rename_i hl
      rw [hl] at ht
      cases ht

theorem succ : Recognizes e (N + 1) where
  statement hx hb hR hN := ih.statement_succ he hx hb hR (Nat.le_of_lt_succ hN)
  block owner _ hb hR hN := ih.block_succ he owner hb hR (Nat.le_of_lt_succ hN)
  expression hx hb hR hN := ih.expression_succ he hx hb hR (Nat.le_of_lt_succ hN)
  binary least lhs hw hR hN := ih.binary_succ he least lhs hw hR (Nat.le_of_lt_succ hN)
  unary hu hw hR hN := ih.unary_succ he hu hw hR (Nat.le_of_lt_succ hN)
  primary hp hw hR hN := ih.primary_succ he hp hw hR (Nat.le_of_lt_succ hN)
  arguments hx hz hN := ih.arguments_succ he hx hz (Nat.le_of_lt_succ hN)
  elements hx hz hp hc hN := ih.elements_succ he hx hz hp hc (Nat.le_of_lt_succ hN)
  doArguments hx hz hN := ih.doArguments_succ he hx hz (Nat.le_of_lt_succ hN)
  function place hx hN := ih.function_succ he place hx (Nat.le_of_lt_succ hN)
  names hx hz hN := ih.names_succ he hx hz (Nat.le_of_lt_succ hN)

end

end Recognizes

theorem recognizes (he : e.lexeme = .endOfInput) (N : Nat) : Recognizes e N := by
  induction N with
  | zero => constructor <;> intros <;> exact absurd ‹_› (Nat.not_lt_zero _)
  | succ N ih => exact ih.succ he

theorem halts_end (he : e.lexeme = .endOfInput) : Halts e [] := by
  refine ⟨by simp [Stream.of, binaryOperator?, he], ?_⟩
  simp [Stream.of, Token.kind, he, Lexeme.kind]

theorem succeeds_program (he : e.lexeme = .endOfInput) (N : Nat) {ns : List Node} {b : List Token}
    (hb : Derives (.block true ns) b) (hN : b.length < N) : Succeeds e ampleProgram b (· = []) := by
  induction N generalizing ns b with
  | zero => exact absurd hN (Nat.not_lt_zero _)
  | succ N ih =>
    have hunfold : Succeeds e (programBy (Calls.ample.statement false) ampleProgram) b (· = []) →
        Succeeds e ampleProgram b (· = []) := by
      rintro ⟨a, us, h, hus⟩
      exact ⟨a, us, (ampleProgram_eq (closed_of he b)).trans h, hus⟩
    refine hunfold (.current ?_)
    cases hb with
    | empty =>
      rw [show (Stream.of e []).tok.lexeme = .endOfInput from he]
      exact .pure rfl
    | separator ht hb =>
      simp only [List.length_cons] at hN
      simp only [tok_of, ht]
      exact .advance (ih hb (by omega))
    | cons hn hb =>
      obtain ⟨t, us, rfl, ht⟩ := hn.head_statement
      simp only [List.length_append, List.length_cons] at hN
      split
      case h_3 =>
        have hs := (recognizes he (N + 1)).statement hn hb (halts_end he) (by simp; omega)
        rw [List.append_nil] at hs
        refine hs.bind fun first us hus => ?_
        obtain ⟨ns', b', rfl, hb', hle⟩ := hus
        rw [List.append_nil]
        exact (ih hb' (by omega)).bind fun _ _ h => .pure h
      all_goals
        rename_i hl
        rw [show t.lexeme = _ from hl] at ht
        cases ht

end Parse

namespace Program

/-- A sequence of tokens in front of the end of the input is accepted if and only if it is derived
from a program, and the tree is that of a derivation. -/
theorem accepts_exactly_grammar {e : Token} {ts : List Token} (he : e.lexeme = .endOfInput)
    (hts : ∀ t ∈ ts, t.kind ≠ .endOfInput) :
    ((∃ p, ofScan ⟨ts ++ [e], none⟩ = .ok p) ↔ ∃ p, Derives (.block true p) ts) ∧
      ∀ p, ofScan ⟨ts ++ [e], none⟩ = .ok p → Derives (.block true p) ts := by
  have hsound (p : Program) (h : ofScan ⟨ts ++ [e], none⟩ = .ok p) : Derives (.block true p) ts :=
    (derived_of_ofScan he hts h).derives
  refine ⟨⟨Exists.imp hsound, ?_⟩, hsound⟩
  rintro ⟨p, h⟩
  obtain ⟨q, us, hq, -⟩ := Parse.succeeds_program he _ h (Nat.lt_succ_self _)
  exact ⟨q, by rw [ofScan_of_end he, hq]; rfl⟩

def headerTokens : List Token :=
  [⟨.keyword .ifThen, ⟨1, 1⟩⟩, ⟨.identifier "g", ⟨1, 4⟩⟩, ⟨.mark .leftParen, ⟨1, 6⟩⟩,
    ⟨.identifier "x", ⟨1, 7⟩⟩, ⟨.mark .rightParen, ⟨1, 8⟩⟩, ⟨.keyword .done, ⟨1, 10⟩⟩]

/-- The tokens are derived as a condition with its statement, and parsing, which reads a call there,
accepts them. -/
theorem accepts_exactly_grammar_header :
    Derives (.block true [.conditional ⟨1, 1⟩ (.ident ⟨1, 4⟩ "g") [.ident ⟨1, 7⟩ "x"] none])
    headerTokens ∧ ∃ p, ofScan ⟨headerTokens ++ [⟨.endOfInput, ⟨1, 14⟩⟩], none⟩ = .ok p := by
  have hg : Derives (.expression 0 (.ident ⟨1, 4⟩ "g")) [⟨.identifier "g", ⟨1, 4⟩⟩] :=
    .operand (.primary (.ident (t := ⟨.identifier "g", ⟨1, 4⟩⟩) rfl))
  have hx : Derives (.expression 0 (.ident ⟨1, 7⟩ "x")) [⟨.identifier "x", ⟨1, 7⟩⟩] :=
    .operand (.primary (.ident (t := ⟨.identifier "x", ⟨1, 7⟩⟩) rfl))
  have hbody : Derives (.block false [.ident ⟨1, 7⟩ "x"]) [⟨.mark .leftParen, ⟨1, 6⟩⟩,
      ⟨.identifier "x", ⟨1, 7⟩⟩, ⟨.mark .rightParen, ⟨1, 8⟩⟩] :=
    .cons (.plain (.operand (.primary (.group rfl hx rfl)))) .empty
  have hall :
    Derives (.block true [.conditional ⟨1, 1⟩ (.ident ⟨1, 4⟩ "g") [.ident ⟨1, 7⟩ "x"] none])
      headerTokens := .cons (.conditional (t := ⟨.keyword .ifThen, ⟨1, 1⟩⟩) rfl hg hbody rfl) .empty
  refine ⟨hall, (accepts_exactly_grammar rfl ?_).1.mpr ⟨_, hall⟩⟩
  simp [headerTokens, Token.kind, Lexeme.kind]

end Program

end RealScript
