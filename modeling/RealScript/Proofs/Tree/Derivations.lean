import RealScript.Proofs.Tree.Unfolding

/-! # The grammar

What the grammar derives, and that all that parsing accepts is derived. Parsing never leaves a name
apart from an opening parenthesis behind it: the tree accounts for each such pair. A run of
semicolons, which may be empty, separates statements. The first element between pipes does not start
with a pipe. Definitions and host declarations stand outside of all blocks.
-/

namespace RealScript

inductive Phrase where
  | statement (top : Bool) (n : Node)
  /-- Statements with semicolons between them. -/
  | block (top : Bool) (ns : List Node)
  /-- An expression whose operators outside of parentheses bind at least as tight as `least`. -/
  | expression (least : Nat) (n : Node)
  | unary (n : Node)
  | primary (n : Node)
  /-- At least one expression. -/
  | arguments (ns : List Node)
  | elements (ns : List Node)
  /-- Expressions, each behind a comma. -/
  | further (ns : List Node)
  /-- The parameters and the body of a function. -/
  | function (params : List String) (body : List Node)
  | params (xs : List String)
  /-- At least one name. -/
  | names (xs : List String)

def Token.Joins (t : Token) (op : Operator) : Prop := Parse.binaryOperator? t = some op

theorem Token.Joins.lexeme {t : Token} {op : Operator} (h : t.Joins op) :
    t.lexeme = .operator op ∧ op.category ≠ .unary := by
  have h : Parse.binaryOperator? t = some op := h
  unfold Parse.binaryOperator? at h
  split at h
  · rename_i o ho
    split at h
    · rename_i hb
      cases h
      exact ⟨ho, by simp_all [Operator.isBinary]⟩
    · cases h
  · cases h

inductive Derives : Phrase → List Token → Prop where
  | empty {top : Bool} : Derives (.block top []) []
  | separator {top : Bool} {ns : List Node} {t : Token} {ts : List Token} :
      t.lexeme = .mark .semicolon → Derives (.block top ns) ts → Derives (.block top ns) (t :: ts)
  | cons {top : Bool} {n : Node} {ns : List Node} {ts us : List Token} :
      Derives (.statement top n) ts → Derives (.block top ns) us →
      Derives (.block top (n :: ns)) (ts ++ us)
  | conditional {top : Bool} {c : Node} {body : List Node} {t z : Token} {ts us : List Token} :
      t.lexeme = .keyword .ifThen → Derives (.expression 0 c) ts → Derives (.block false body) us →
      z.lexeme = .keyword .done →
      Derives (.statement top (.conditional t.pos c body none)) (t :: (ts ++ (us ++ [z])))
  | alternative {top : Bool} {c : Node} {body other : List Node} {t y z : Token}
      {ts us vs : List Token} :
      t.lexeme = .keyword .ifThen → Derives (.expression 0 c) ts → Derives (.block false body) us →
      y.lexeme = .keyword .orElse → Derives (.block false other) vs → z.lexeme = .keyword .done →
      Derives (.statement top (.conditional t.pos c body (some other)))
        (t :: (ts ++ (us ++ y :: (vs ++ [z]))))
  | whileLoop {top : Bool} {c : Node} {body : List Node} {t z : Token} {ts us : List Token} :
      t.lexeme = .keyword .whileLoop → Derives (.expression 0 c) ts →
        Derives (.block false body) us →
      z.lexeme = .keyword .done →
      Derives (.statement top (.whileLoop t.pos c body)) (t :: (ts ++ (us ++ [z])))
  | forLoop {top : Bool} {var : String} {start stop : Node} {body : List Node} {t v a x z : Token}
      {op : Operator} {ts us bs : List Token} :
      t.lexeme = .keyword .forLoop → v.lexeme = .identifier var → a.lexeme = .operator op →
      op.spelling = "=" → Derives (.expression 0 start) ts → x.lexeme = .mark .comma →
      Derives (.expression 0 stop) us → Derives (.block false body) bs → z.lexeme = .keyword .done →
      Derives (.statement top (.forLoop t.pos var start stop none body))
        (t :: v :: a :: (ts ++ x :: (us ++ (bs ++ [z]))))
  | forStep {top : Bool} {var : String} {start stop step : Node} {body : List Node}
      {t v a x y z : Token} {op : Operator} {ts us vs bs : List Token} :
      t.lexeme = .keyword .forLoop → v.lexeme = .identifier var → a.lexeme = .operator op →
      op.spelling = "=" → Derives (.expression 0 start) ts → x.lexeme = .mark .comma →
      Derives (.expression 0 stop) us → y.lexeme = .mark .comma → Derives (.expression 0 step) vs →
      Derives (.block false body) bs → z.lexeme = .keyword .done →
      Derives (.statement top (.forLoop t.pos var start stop (some step) body))
        (t :: v :: a :: (ts ++ x :: (us ++ y :: (vs ++ (bs ++ [z])))))
  | ret {top : Bool} {n : Node} {t : Token} {ts : List Token} :
      t.lexeme = .keyword .ret → Derives (.expression 0 n) ts →
      Derives (.statement top (.ret t.pos n)) (t :: ts)
  | definition {name : String} {ps : List String} {body : List Node} {t v : Token}
    {ts : List Token} :
      t.lexeme = .keyword .func → v.lexeme = .identifier name → Derives (.function ps body) ts →
      Derives (.statement true (.funcDef t.pos name ps body)) (t :: v :: ts)
  | host {name : String} {ps : List String} {t v : Token} {ts : List Token} :
      t.lexeme = .keyword .host → v.lexeme = .identifier name → Derives (.params ps) ts →
      Derives (.statement true (.hostDecl t.pos name ps)) (t :: v :: ts)
  | plain {top : Bool} {n : Node} {ts : List Token} : Derives (.expression 0 n) ts →
      Derives (.statement top n) ts
  | operand {least : Nat} {n : Node} {ts : List Token} : Derives (.unary n) ts →
      Derives (.expression least n) ts
  | binary {least : Nat} {l r : Node} {t : Token} {op : Operator} {ts us : List Token} :
      t.Joins op → least ≤ op.precedence → Derives (.expression op.precedence l) ts →
      Derives (.expression (op.precedence + 1) r) us →
      Derives (.expression least (.binary t.pos op.spelling l r)) (ts ++ t :: us)
  | unary {n : Node} {t : Token} {op : Operator} {ts : List Token} :
      t.lexeme = .operator op → op.category = .unary → Derives (.unary n) ts →
      Derives (.unary (.unary t.pos op.spelling n)) (t :: ts)
  | primary {n : Node} {ts : List Token} : Derives (.primary n) ts → Derives (.unary n) ts
  | ident {name : String} {t : Token} : t.lexeme = .identifier name →
      Derives (.primary (.ident t.pos name)) [t]
  | callEmpty {name : String} {t x z : Token} : t.lexeme = .identifier name →
      x.lexeme = .mark .leftParen → z.lexeme = .mark .rightParen →
      Derives (.primary (.call t.pos false name [])) [t, x, z]
  | call {name : String} {args : List Node} {t x z : Token} {ts : List Token} :
      t.lexeme = .identifier name → x.lexeme = .mark .leftParen → Derives (.arguments args) ts →
      z.lexeme = .mark .rightParen →
      Derives (.primary (.call t.pos false name args)) (t :: x :: (ts ++ [z]))
  | number {text : String} {value : Float} {t : Token} : t.lexeme = .number text value →
      Derives (.primary (.number t.pos value)) [t]
  | group {n : Node} {x z : Token} {ts : List Token} : x.lexeme = .mark .leftParen →
      Derives (.expression 0 n) ts → z.lexeme = .mark .rightParen →
      Derives (.primary n) (x :: (ts ++ [z]))
  | collection {ns : List Node} {x z : Token} {ts : List Token} : x.lexeme = .mark .leftBracket →
      Derives (.elements ns) ts → z.lexeme = .mark .rightBracket →
      Derives (.primary (.collection x.pos false ns)) (x :: (ts ++ [z]))
  | sequence {ns : List Node} {x z : Token} {ts : List Token} : x.lexeme = .mark .pipe →
      Derives (.elements ns) ts → (∀ t us, ts = t :: us → t.lexeme ≠ .mark .pipe) →
      z.lexeme = .mark .pipe → Derives (.primary (.collection x.pos true ns)) (x :: (ts ++ [z]))
  | builtin {name : String} {args : List Node} {t x b z : Token} {ts : List Token} :
      t.lexeme = .keyword .doCall → x.lexeme = .mark .leftParen → b.lexeme = .builtin name →
      Derives (.further args) ts → z.lexeme = .mark .rightParen →
      Derives (.primary (.call t.pos true name args)) (t :: x :: b :: (ts ++ [z]))
  | funcLit {ps : List String} {body : List Node} {t : Token} {ts : List Token} :
      t.lexeme = .keyword .func → Derives (.function ps body) ts →
      Derives (.primary (.funcLit t.pos ps body)) (t :: ts)
  | argument {n : Node} {ts : List Token} : Derives (.expression 0 n) ts →
    Derives (.arguments [n]) ts
  | argumentCons {n : Node} {ns : List Node} {x : Token} {ts us : List Token} :
      Derives (.expression 0 n) ts → x.lexeme = .mark .comma → Derives (.arguments ns) us →
      Derives (.arguments (n :: ns)) (ts ++ x :: us)
  | element {n : Node} {ts : List Token} : Derives (.primary n) ts → Derives (.elements [n]) ts
  | elementCons {n : Node} {ns : List Node} {x : Token} {ts us : List Token} :
      Derives (.primary n) ts → x.lexeme = .mark .comma → Derives (.elements ns) us →
      Derives (.elements (n :: ns)) (ts ++ x :: us)
  | furtherNil : Derives (.further []) []
  | furtherCons {n : Node} {ns : List Node} {x : Token} {ts us : List Token} :
      x.lexeme = .mark .comma → Derives (.expression 0 n) ts → Derives (.further ns) us →
      Derives (.further (n :: ns)) (x :: (ts ++ us))
  | function {ps : List String} {body : List Node} {x z : Token} {ts us : List Token} :
      Derives (.params ps) ts → x.lexeme = .mark .leftBrace → Derives (.block false body) us →
      z.lexeme = .mark .rightBrace → Derives (.function ps body) (ts ++ x :: (us ++ [z]))
  | paramsEmpty {x z : Token} : x.lexeme = .mark .leftParen → z.lexeme = .mark .rightParen →
      Derives (.params []) [x, z]
  | params {xs : List String} {x z : Token} {ts : List Token} : x.lexeme = .mark .leftParen →
      Derives (.names xs) ts → z.lexeme = .mark .rightParen → Derives (.params xs)
        (x :: (ts ++ [z]))
  | name {v : String} {t : Token} : t.lexeme = .identifier v → Derives (.names [v]) [t]
  | nameCons {v : String} {xs : List String} {t x : Token} {ts : List Token} :
      t.lexeme = .identifier v → x.lexeme = .mark .comma → Derives (.names xs) ts →
      Derives (.names (v :: xs)) (t :: x :: ts)

def meet : List Token → List Token → Nat
  | [], _ => 0
  | t :: ts, vs =>
    (if t.kind = .identifier ∧ (ts ++ vs).head?.map Token.kind = some (.mark .leftParen) then 1 else
      0) + meet ts vs

theorem meet_append (ts us vs : List Token) :
    meet (ts ++ us) vs = meet ts (us ++ vs) + meet us vs := by
  induction ts with
  | nil => simp [meet]
  | cons t ts ih => simp only [List.cons_append, meet, ih, List.append_assoc, Nat.add_assoc]

@[simp] theorem meet_nil (vs : List Token) : meet [] vs = 0 := rfl

theorem meet_cons {t : Token} (ht : t.lexeme.kind ≠ .identifier) (ts vs : List Token) :
    meet (t :: ts) vs = meet ts vs := by
  simp [meet, Token.kind, ht]

theorem meet_name {t x : Token} {name : String} (ht : t.lexeme = .identifier name)
    (hx : x.lexeme.kind ≠ .identifier) (ts vs : List Token) :
    meet (t :: x :: ts) vs = (if x.lexeme.kind = .mark .leftParen then 1 else 0) + meet ts vs := by
  have hname : (Lexeme.identifier name).kind = .identifier := rfl
  simp [meet, Token.kind, ht, hx, hname]

@[simp] def Phrase.openings : Phrase → Nat
  | .statement _ n | .expression _ n | .unary n | .primary n => n.openings
  | .block _ ns | .arguments ns | .elements ns | .further ns | .function _ ns => Node.openingsAll ns
  | .params _ | .names _ => 0

structure Derived (p : Phrase) (us vs : List Token) : Prop where
  derives : Derives p us
  counts : meet us vs = p.openings

def Stream.of (e : Token) : List Token → Stream
  | [] => ⟨e, [], none⟩
  | t :: ts => ⟨t, ts ++ [e], none⟩

namespace Parse

theorem advance_of (e t : Token) (ts : List Token) :
    advance (Stream.of e (t :: ts)) = .ok ((), Stream.of e ts) := by
  cases ts <;> rfl

theorem lexeme_of_mark {t : Token} {m : Mark} (h : t.kind = .mark m) : t.lexeme = .mark m := by
  unfold Token.kind at h
  cases hl : t.lexeme <;> simp_all [Lexeme.kind]

theorem lexeme_of_keyword {t : Token} {k : Keyword} (h : t.kind = .keyword k) :
    t.lexeme = .keyword k := by
  unfold Token.kind at h
  cases hl : t.lexeme <;> simp_all [Lexeme.kind]

theorem lexeme_of_identifier {t : Token} (h : t.kind = .identifier) :
    t.lexeme = .identifier t.lexeme.spelling := by
  unfold Token.kind at h
  cases hl : t.lexeme <;> simp_all [Lexeme.kind, Lexeme.spelling]

theorem closed_of {e : Token} (he : e.lexeme = .endOfInput) (ts : List Token) :
    (Stream.of e ts).Closed := by
  have hk : e.kind = .endOfInput := by rw [Token.kind, he]; rfl
  intro _
  cases ts with
  | nil => exact hk
  | cons t ts =>
    have hlast : (t :: ts ++ [e]).getLast (by simp) = e := List.getLast_concat
    exact (congrArg Token.kind hlast).trans hk

/-! ## What is taken -/

section Takes

variable {α β : Type} {e : Token}

/-- Whatever a parser gives, it takes some tokens that satisfy a condition with what it leaves. -/
def Takes (e : Token) (x : Parse α) (ts : List Token) (Q : α → List Token → List Token → Prop) :
    Prop :=
  ∀ a s, x (Stream.of e ts) = .ok (a, s) → ∃ us vs, ts = us ++ vs ∧ s = Stream.of e vs ∧ Q a us vs

def Behind (l : Lexeme) (P : α → List Token → List Token → Prop) :
    Option α → List Token → List Token → Prop
  | none, us, _ => us = []
  | some a, us, vs => ∃ t us', us = t :: us' ∧ t.lexeme = l ∧ P a us' vs

namespace Takes

variable {x : Parse α} {f : α → Parse β} {ts : List Token} {P : α → List Token → List Token → Prop}
  {Q : β → List Token → List Token → Prop}

theorem mono {P' : α → List Token → List Token → Prop} (h : Takes e x ts P)
    (hp : ∀ a us vs, P a us vs → P' a us vs) : Takes e x ts P' := by
  intro a s hx
  obtain ⟨us, vs, hts, hs, hP⟩ := h a s hx
  exact ⟨us, vs, hts, hs, hp a us vs hP⟩

theorem bind (hx : Takes e x ts P) (hf : ∀ a us vs, ts = us ++ vs → P a us vs →
    Takes e (f a) vs fun b ws zs => Q b (us ++ ws) zs) : Takes e (x >>= f) ts Q := by
  intro b s h
  rw [bind_run] at h
  cases hx' : x (Stream.of e ts) with
  | error d => rw [hx'] at h; cases h
  | ok r =>
    obtain ⟨a, t⟩ := r
    rw [hx'] at h
    obtain ⟨us, vs, rfl, rfl, hP⟩ := hx a t hx'
    obtain ⟨ws, zs, rfl, rfl, hQ⟩ := hf a us vs rfl hP b s h
    exact ⟨us ++ ws, zs, (List.append_assoc ..).symm, rfl, hQ⟩

theorem pure {a : α} (h : P a [] ts) : Takes e (pure a) ts P := by
  intro b s hb
  cases hb
  exact ⟨[], ts, rfl, rfl, h⟩

theorem throw {d : Diagnostic} : Takes e (throw d : Parse α) ts P := fun _ _ h => by cases h

theorem reject {cause : Token → Cause} :
    Takes e (reject cause : Parse α) ts P := fun _ _ h => by cases h

theorem current {f : Token → Parse β} (h : Takes e (f (Stream.of e ts).tok) ts Q) :
    Takes e (current >>= f) ts Q := h

theorem advance {t : Token} {f : Unit → Parse β}
    (h : Takes e (f ()) ts fun b us vs => Q b (t :: us) vs) :
    Takes e (advance >>= f) (t :: ts) Q := by
  intro b s hb
  rw [bind_run, advance_of] at hb
  obtain ⟨us, vs, rfl, rfl, hQ⟩ := h b s hb
  exact ⟨t :: us, vs, rfl, rfl, hQ⟩

section

variable (he : e.lexeme = .endOfInput)

include he

theorem expect {kind : TokenKind} (hk : kind ≠ .endOfInput) {place : Place}
    {f : Token → Parse β} (h : ∀ t us, ts = t :: us → t.kind = kind →
      Takes e (f t) us fun b vs zs => Q b (t :: vs) zs) :
    Takes e (Parse.expect kind place >>= f) ts Q := by
  intro b s hb
  rw [bind_run] at hb
  cases ts with
  | nil =>
    have hne : ¬ e.kind = kind := fun hek => hk (by rw [← hek, Token.kind, he]; rfl)
    have : Parse.expect kind place (Stream.of e []) = .error ⟨e.pos,
      Cause.expected kind place e⟩ := by
      change (if e.kind = kind then _ else _ : Parse Token) _ = _
      rw [if_neg hne]
      rfl
    rw [this] at hb
    cases hb
  | cons t us =>
    by_cases hkind : t.kind = kind
    · have : Parse.expect kind place (Stream.of e (t :: us)) = .ok (t, Stream.of e us) := by
        change (if t.kind = kind then _ else _ : Parse Token) _ = _
        rw [if_pos hkind, bind_run, advance_of]
        rfl
      rw [this] at hb
      obtain ⟨vs, zs, rfl, rfl, hQ⟩ := h t us rfl hkind b s hb
      exact ⟨t :: vs, zs, rfl, rfl, hQ⟩
    · have : Parse.expect kind place (Stream.of e (t :: us)) =
          .error ⟨t.pos, Cause.expected kind place t⟩ := by
        change (if t.kind = kind then _ else _ : Parse Token) _ = _
        rw [if_neg hkind]
        rfl
      rw [this] at hb
      cases hb

theorem behind {kind : TokenKind} {l : Lexeme} (hk : kind ≠ .endOfInput)
    (hl : ∀ t : Token, t.kind = kind → t.lexeme = l) {p : Token → Parse α}
    (h : ∀ t us, Takes e (p t) us P) : Takes e (behind? kind p) ts (Behind l P) := by
  refine .current ?_
  split
  · rename_i hkind
    cases ts with
    | nil => exact absurd (hkind.symm.trans (by simp [Stream.of, Token.kind, he, Lexeme.kind])) hk
    | cons t us =>
      refine .advance ((h _ us).bind fun a vs _ _ ha => .pure ?_)
      exact ⟨t, vs, by simp, hl t hkind, ha⟩
  · exact .pure rfl

theorem expectMark {m : Mark} {place : Place} {f : Token → Parse β}
    (h : ∀ t us, ts = t :: us → t.lexeme = .mark m → Takes e (f t) us fun b vs zs => Q b
    (t :: vs) zs) :
    Takes e (Parse.expect (.mark m) place >>= f) ts Q :=
  .expect he (by simp) fun t us hts hk => h t us hts (lexeme_of_mark hk)

theorem expectKeyword {k : Keyword} {place : Place} {f : Token → Parse β}
    (h : ∀ t us, ts = t :: us → t.lexeme = .keyword k →
      Takes e (f t) us fun b vs zs => Q b (t :: vs) zs) :
    Takes e (Parse.expect (.keyword k) place >>= f) ts Q :=
  .expect he (by simp) fun t us hts hk => h t us hts (lexeme_of_keyword hk)

theorem expectName {place : Place} {f : String → Parse β}
    (h : ∀ t us v, t.lexeme = .identifier v → Takes e (f v) us fun b vs zs => Q b (t :: vs) zs) :
    Takes e (Parse.expectName place >>= f) ts Q := by
  refine bind (P := fun v us _ => ∃ t, us = [t] ∧ t.lexeme = .identifier v) ?_ ?_
  · exact .expect he (by simp) fun t us _ hk => .pure ⟨t, rfl, lexeme_of_identifier hk⟩
  · rintro v _ vs - ⟨t, rfl, ht⟩
    exact h t vs v ht

end

theorem ite_bind {c : Prop} [Decidable c] {y : Parse α} (hx : c → Takes e x ts P)
    (hy : ¬ c → Takes e y ts P) (hf : ∀ a us vs, ts = us ++ vs → P a us vs →
      Takes e (f a) vs fun b ws zs => Q b (us ++ ws) zs) :
    Takes e (if c then x >>= f else y >>= f) ts Q := by
  split
  · exact (hx ‹_›).bind hf
  · exact (hy ‹_›).bind hf

end Takes

end Takes

/-! ## What is accepted is derived -/

/-- The functions of the parser give trees of what they take. Those that go on up to a closing token
take it as well. An expression that was begun has all the operators taken that bind tight enough. -/
structure Derivable (e : Token) (c : Calls) : Prop where
  statement (nested : Bool) (ts : List Token) :
    Takes e (c.statement nested) ts fun n => Derived (.statement (!nested) n)
  block (owner : Token) (closers : List TokenKind) (ts : List Token) :
    Takes e (c.block owner closers) ts fun ns => Derived (.block false ns)
  expression (ts : List Token) : Takes e c.expression ts fun n => Derived (.expression 0 n)
  binary (least : Nat) (lhs : Node) (before ts : List Token) :
    Derived (.expression least lhs) before ts →
    (∀ t us op, ts = t :: us → t.Joins op → least ≤ op.precedence →
      Derives (.expression op.precedence lhs) before) →
    Takes e (c.binary least lhs) ts fun n us vs => Derived (.expression least n) (before ++ us) vs ∧
      ∀ t ws op, vs = t :: ws → t.Joins op → op.precedence < least
  unary (ts : List Token) : Takes e c.unary ts fun n => Derived (.unary n)
  primary (ts : List Token) : Takes e c.primary ts fun n => Derived (.primary n)
  arguments (ts : List Token) : Takes e c.arguments ts fun ns us ws =>
    ∃ vs z, us = vs ++ [z] ∧ z.lexeme = .mark .rightParen ∧ Derived (.arguments ns) vs (z :: ws)
  collection (start : Token) (closer : Mark) (ts : List Token) :
    Takes e (c.collection start closer) (start :: ts) fun n us ws => ∃ ns vs z,
      n = .collection start.pos (closer = .pipe) ns ∧ us = start :: (vs ++ [z]) ∧
      z.lexeme = .mark closer ∧ Derived (.elements ns) vs (z :: ws) ∧
      ∀ t ws, vs = t :: ws → t.lexeme ≠ .mark closer
  elements (closer : Mark) (ts : List Token) : Takes e (c.elements closer) ts fun ns us ws =>
    ∃ vs z, us = vs ++ [z] ∧ z.lexeme = .mark closer ∧ Derived (.elements ns) vs (z :: ws)
  doArguments (ts : List Token) : Takes e c.doArguments ts fun ns us ws =>
    ∃ vs z, us = vs ++ [z] ∧ z.lexeme = .mark .rightParen ∧ Derived (.further ns) vs (z :: ws)
  function (place : Place) (ts : List Token) : Takes e (c.function place) ts fun r us vs =>
    Derived (.function r.1 r.2) us vs ∧ ∃ x ws, us = x :: ws ∧ x.lexeme = .mark .leftParen
  names (ts : List Token) : Takes e c.names ts fun xs us vs => Derives (.names xs) us ∧
    ∀ v ws, vs = v :: ws → v.lexeme ≠ .mark .leftParen → meet us vs = 0

namespace Derivable

variable {e : Token} {c : Calls} {ts : List Token}

theorem expectAssign (he : e.lexeme = .endOfInput) {β : Type} {f : Unit → Parse β}
    {Q : β → List Token → List Token → Prop}
    (h : ∀ a us op, ts = a :: us → a.lexeme = .operator op → op.spelling = "=" →
      Takes e (f ()) us fun b vs zs => Q b (a :: vs) zs) :
    Takes e (Parse.expectAssign >>= f) ts Q := by
  refine Takes.bind (P := fun _ us _ => ∃ a op, us = [a] ∧ a.lexeme = .operator op ∧
    op.spelling = "=")
    ?_ ?_
  · refine .current ?_
    split
    · rename_i category precedence hl
      cases ts with
      | nil => simp [Stream.of, he] at hl
      | cons a us =>
        intro _ s hs
        rw [advance_of] at hs
        obtain ⟨-, rfl⟩ := Prod.mk.inj (Except.ok.inj hs)
        exact ⟨[a], us, rfl, rfl, a, _, rfl, hl, rfl⟩
    · exact .reject
  · rintro _ _ vs hts ⟨a, op, rfl, ha, hop⟩
    exact h a vs op hts ha hop

section

variable (ih : Derivable e c)

include ih

attribute [local simp] Lexeme.kind Node.openings Node.openingsAll meet_append meet_cons

theorem unfold_expression : Takes e c.unfold.expression ts fun n => Derived (.expression 0 n) := by
  refine (ih.unary ts).bind fun lhs us vs _ hlhs => ?_
  exact (ih.binary 0 lhs us vs ⟨.operand hlhs.1, hlhs.2⟩ fun _ _ _ _ _ _ => .operand hlhs.1).mono
    fun _ _ _ h => h.1

theorem combine {t : Token} {op : Operator} {least : Nat} {lhs operand : Node}
    {before us : List Token} (ht : t.Joins op) (hle : least ≤ op.precedence)
    (hlhs : Derived (.expression op.precedence lhs) before (t :: (us ++ ts)))
    (hoperand : Derived (.unary operand) us ts) :
    Takes e (c.combine t op least lhs operand) ts fun n vs ws =>
      Derived (.expression least n) (before ++ t :: (us ++ vs)) ws ∧
        ∀ t ws' op, ws = t :: ws' → t.Joins op → op.precedence < least := by
  refine .current ?_
  dsimp only
  -- What is to the right has taken all operators that bind tighter.
  refine .ite_bind (P := fun r vs ws => Derived (.expression (op.precedence + 1) r) (us ++ vs) ws ∧
    ∀ t ws' op', ws = t :: ws' → t.Joins op' → op'.precedence ≤ op.precedence) (fun _ => ?_)
    (fun htight => ?_) fun r vs ws hts ⟨hr, hmax⟩ => ?_
  · refine (ih.binary (op.precedence + 1) operand us ts ⟨.operand hoperand.1, hoperand.2⟩
      fun _ _ _ _ _ _ => .operand hoperand.1).mono fun r vs ws ⟨hr, hmax⟩ => ⟨hr, ?_⟩
    exact fun t ws' op' hws hj => Nat.le_of_lt_succ (hmax t ws' op' hws hj)
  · refine .pure ⟨by simpa using ⟨.operand hoperand.1, hoperand.2⟩, fun t ws' op' hws hj => ?_⟩
    subst hws
    have hj : binaryOperator? t = some op' := hj
    simp only [Stream.of, hj, Option.any_some, decide_eq_true_eq, Nat.not_lt] at htight
    exact htight
  have hnew : ∀ p, p ≤ op.precedence →
      Derived (.expression p (.binary t.pos op.spelling lhs r)) (before ++ t :: (us ++ vs)) ws := by
    refine fun p hp => ⟨.binary ht hp hlhs.1 hr.1, ?_⟩
    subst hts
    rw [meet_append, meet_cons (by rw [ht.lexeme.1]; intro h; cases h), hr.counts, List.cons_append,
      List.append_assoc,
      hlhs.counts]
    rfl
  refine (ih.binary least _ _ ws (hnew least hle) fun t ws' op' hws hj _ =>
    (hnew _ (hmax t ws' op' hws hj)).1).mono
    fun n xs ys ⟨hn, hmax⟩ => ⟨?_, hmax⟩
  simpa using hn

theorem unfold_collection (start : Token) (closer : Mark) :
    Takes e (c.unfold.collection start closer) (start :: ts) fun n us ws => ∃ ns vs z,
      n = .collection start.pos (closer = .pipe) ns ∧ us = start :: (vs ++ [z]) ∧
      z.lexeme = .mark closer ∧ Derived (.elements ns) vs (z :: ws) ∧
      ∀ t ws, vs = t :: ws → t.lexeme ≠ .mark closer := by
  refine .advance (.current ?_)
  split
  · exact Takes.bind (P := fun _ _ _ => False) .reject fun _ _ _ _ h => h.elim
  · rename_i hk
    refine (ih.elements closer ts).bind ?_
    rintro ns us vs hts ⟨us', z, hus, hz, hns⟩
    refine .pure ?_
    refine ⟨ns, us', z, rfl, by simp [hus], hz, hns, fun t ws hws ht => hk ?_⟩
    rw [hts, hus, hws]
    change t.kind = _
    rw [Token.kind, ht]
    rfl

variable (he : e.lexeme = .endOfInput)

include he

theorem unfold_binary {least : Nat} {lhs : Node}
    {before : List Token} (hlhs : Derived (.expression least lhs) before ts)
    (hnext : ∀ t us op, ts = t :: us → t.Joins op → least ≤ op.precedence →
      Derives (.expression op.precedence lhs) before) :
    Takes e (c.unfold.binary least lhs) ts fun n us vs => Derived (.expression least n)
    (before ++ us) vs ∧ ∀ t ws op, vs = t :: ws → t.Joins op → op.precedence < least := by
  refine .current ?_
  cases ts with
  | nil =>
    have : binaryOperator? (Stream.of e []).tok = none := by simp [Stream.of, binaryOperator?, he]
    rw [this]
    exact .pure ⟨by simpa using hlhs, by simp⟩
  | cons t us =>
    cases hop : binaryOperator? (Stream.of e (t :: us)).tok with
    | none =>
      refine .pure ⟨by simpa using hlhs, fun t' ws op hws hj => ?_⟩
      obtain ⟨rfl, rfl⟩ := List.cons.inj hws
      have hj : binaryOperator? t = some op := hj
      rw [show binaryOperator? t = none from hop] at hj
      cases hj
    | some op =>
      have hj : t.Joins op := hop
      dsimp only
      split
      · rename_i hlt
        refine .pure ⟨by simpa using hlhs, fun t' ws op' hws hj' => ?_⟩
        obtain ⟨rfl, rfl⟩ := List.cons.inj hws
        cases hj.symm.trans hj'
        exact hlt
      · rename_i hge
        refine .advance ((ih.unary us).bind fun operand vs ws hus hoperand => ?_)
        have hle := Nat.le_of_not_lt hge
        have hlhs := hlhs.counts
        rw [hus] at hlhs
        exact (ih.combine hj hle ⟨hnext t us op rfl hj hle, hlhs⟩ hoperand).mono
          fun _ _ _ h => by simpa using h

theorem unfold_unary : Takes e c.unfold.unary ts fun n => Derived (.unary n) := by
  refine .current ?_
  split
  · rename_i op hl
    split
    · rename_i hcat
      cases ts with
      | nil => simp [Stream.of, he] at hl
      | cons t us =>
        have hl : t.lexeme = .operator op := hl
        refine .advance ((ih.unary us).bind fun n vs ws _ hn => .pure ?_)
        rw [List.append_nil]
        exact ⟨.unary hl hcat hn.1, by simp [hl, hn.2]⟩
    · exact (ih.primary ts).mono fun _ _ _ h => ⟨.primary h.1, h.2⟩
  · exact (ih.primary ts).mono fun _ _ _ h => ⟨.primary h.1, h.2⟩

theorem unfold_arguments : Takes e c.unfold.arguments ts fun ns us ws =>
      ∃ vs z, us = vs ++ [z] ∧ z.lexeme = .mark .rightParen ∧ Derived (.arguments ns) vs
        (z :: ws) := by
  refine (ih.expression ts).bind ?_
  rintro n us vs _ ⟨hn, hcount⟩
  refine .current ?_
  split
  · rename_i hl
    cases vs with
    | nil => simp [Stream.of, he] at hl
    | cons x vs =>
      have hl : x.lexeme = .mark .comma := hl
      refine .advance ((ih.arguments vs).bind ?_)
      rintro ns ws zs hvs ⟨ws', z, hws, hz, hns, hcounts⟩
      refine .pure ?_
      refine ⟨us ++ x :: ws', z, by simp [hws], hz, .argumentCons hn hl hns, ?_⟩
      simp_all
  · rename_i hl
    cases vs with
    | nil => simp [Stream.of, he] at hl
    | cons z vs => exact .advance (.pure ⟨us, z, by simp, hl, .argument hn, hcount⟩)
  · exact .reject

theorem unfold_elements (closer : Mark) : Takes e (c.unfold.elements closer) ts fun ns us ws =>
      ∃ vs z, us = vs ++ [z] ∧ z.lexeme = .mark closer ∧ Derived (.elements ns) vs (z :: ws) := by
  refine (ih.primary ts).bind ?_
  rintro n us vs _ ⟨hn, hcount⟩
  refine .current ?_
  dsimp only
  cases vs with
  | nil =>
    have hkind : (Stream.of e []).tok.kind = .endOfInput := by simp [Stream.of, Token.kind, he]
    rw [hkind]
    exact .reject
  | cons x vs =>
    split
    · rename_i hk
      have hl : x.lexeme = .mark .comma := lexeme_of_mark hk
      refine .advance ((ih.elements closer vs).bind ?_)
      rintro ns ws zs hvs ⟨ws', z, hws, hz, hns, hcounts⟩
      refine .pure ?_
      refine ⟨us ++ x :: ws', z, by simp [hws], hz, .elementCons hn hl hns, ?_⟩
      simp_all
    · split
      · rename_i hk
        exact .advance (.pure ⟨us, x, by simp, lexeme_of_mark hk, .element hn, hcount⟩)
      · exact .reject

theorem unfold_doArguments : Takes e c.unfold.doArguments ts fun ns us ws =>
      ∃ vs z, us = vs ++ [z] ∧ z.lexeme = .mark .rightParen ∧ Derived (.further ns) vs
        (z :: ws) := by
  refine .current ?_
  cases ts with
  | nil =>
    rw [show (Stream.of e []).tok.lexeme = .endOfInput from he]
    exact .reject
  | cons x us =>
    split
    · rename_i hl
      have hl : x.lexeme = .mark .comma := hl
      refine .advance ((ih.expression us).bind ?_)
      rintro n vs ws _ ⟨hn, hcount⟩
      refine (ih.doArguments ws).bind ?_
      rintro ns xs ys hws ⟨xs', z, hxs, hz, hns, hcounts⟩
      refine .pure ?_
      refine ⟨x :: (vs ++ xs'), z, by simp [hxs], hz, .furtherCons hl hn hns, ?_⟩
      simp_all
    · rename_i hl
      exact .advance (.pure ⟨[], x, rfl, hl, .furtherNil, rfl⟩)
    · exact .reject

theorem unfold_names :
    Takes e c.unfold.names ts fun xs us vs => Derives (.names xs) us ∧
      ∀ v ws, vs = v :: ws → v.lexeme ≠ .mark .leftParen → meet us vs = 0 := by
  refine .expectName he fun t vs v ht => .current ?_
  split
  · rename_i hk
    cases vs with
    | nil => simp [Stream.of, Token.kind, he] at hk
    | cons x vs =>
      have hx : x.lexeme = .mark .comma := lexeme_of_mark hk
      refine .advance ((ih.names vs).bind ?_)
      rintro xs ws zs _ ⟨hxs, hcount⟩
      refine .pure ?_
      rw [List.append_nil]
      refine ⟨.nameCons ht hx hxs, fun v vs hv hne => ?_⟩
      simp [meet_name ht, hx, hcount v vs hv hne]
  · refine .pure ⟨.name ht, fun v ws hv hne => ?_⟩
    subst hv
    simp [meet, mt lexeme_of_mark hne]

theorem params (place : Place) :
    Takes e (c.params place) ts fun xs us vs => Derived (.params xs) us vs ∧
      ∃ x ws, us = x :: ws ∧ x.lexeme = .mark .leftParen := by
  refine .expectMark he fun x us _ hx => .current ?_
  refine .ite_bind (P := fun xs vs ws => xs = [] ∧ vs = [] ∨ Derives (.names xs) vs ∧
      ∀ v zs, ws = v :: zs → v.lexeme ≠ .mark .leftParen → meet vs ws = 0)
    (fun _ => .pure (.inl ⟨rfl, rfl⟩)) (fun _ => (ih.names us).mono fun _ _ _ h => .inr h)
    fun xs vs ws _ hxs => .expectMark he fun z zs hws hz => .pure ⟨?_, x, _, rfl, hx⟩
  rcases hxs with ⟨rfl, rfl⟩ | ⟨hxs, hcount⟩
  · exact ⟨.paramsEmpty hx hz, by simp [hx, hz]⟩
  · have hcount := hcount z zs hws (by rw [hz]; simp)
    subst hws
    exact ⟨.params hx hxs hz, by simp [hx, hz, hcount]⟩

theorem unfold_function (place : Place) :
    Takes e (c.unfold.function place) ts fun r us vs => Derived (.function r.1 r.2) us vs ∧
      ∃ x ws, us = x :: ws ∧ x.lexeme = .mark .leftParen := by
  refine (ih.params he place).bind ?_
  rintro ps us vs _ ⟨⟨hps, hcount⟩, p, us', hus, hp⟩
  refine .expectMark he fun x ws _ hx => ?_
  refine (ih.block x _ ws).bind ?_
  rintro body xs ys _ ⟨hbody, hcounts⟩
  refine .expectMark he fun z zs _ hz => .pure ⟨⟨.function hps hx hbody hz, ?_⟩, p,
    _, by rw [hus]; rfl, hp⟩
  simp_all

theorem named {t : Token} {name : String} (ht : t.lexeme = .identifier name) :
    Takes e (c.named t name) ts fun n us => Derived (.primary n) (t :: us) := by
  refine .current ?_
  split
  · rename_i hk
    cases ts with
    | nil => simp [Stream.of, Token.kind, he] at hk
    | cons x us =>
      have hx : x.lexeme = .mark .leftParen := lexeme_of_mark hk
      refine .advance (.current ?_)
      split
      · rename_i hk
        cases us with
        | nil => simp [Stream.of, Token.kind, he] at hk
        | cons z us =>
          have hz : z.lexeme = .mark .rightParen := lexeme_of_mark hk
          refine .advance (.pure ⟨.callEmpty ht hx hz, ?_⟩)
          simp [meet_name ht, hx, hz]
      · refine (ih.arguments us).bind ?_
        rintro ns vs ws _ ⟨vs', z, hvs, hz, hns, hcount⟩
        refine .pure ?_
        subst hvs
        rw [List.append_nil]
        refine ⟨.call ht hx hns hz, ?_⟩
        simp_all [meet_name ht]
  · rename_i hk
    refine .pure ⟨.ident ht, ?_⟩
    cases ts with
    | nil => simp [meet]
    | cons x us => simp [meet, show ¬ x.kind = .mark .leftParen from hk]

theorem doCall {t : Token} (ht : t.lexeme = .keyword .doCall) :
    Takes e (c.doCall t) ts fun n us => Derived (.primary n) (t :: us) := by
  refine .expectMark he fun x us _ hx => .current ?_
  split
  · rename_i name hb
    cases us with
    | nil => simp [Stream.of, he] at hb
    | cons b us =>
      have hb : b.lexeme = .builtin name := hb
      refine .advance ((ih.doArguments us).bind ?_)
      rintro ns vs _ _ ⟨vs', z, hvs, hz, hns, hcount⟩
      refine .pure ?_
      subst hvs
      rw [List.append_nil]
      refine ⟨.builtin ht hx hb hns hz, ?_⟩
      simp_all
  · exact .reject

theorem unfold_primary : Takes e c.unfold.primary ts fun n => Derived (.primary n) := by
  refine .current ?_
  cases ts with
  | nil =>
    rw [show (Stream.of e []).tok.lexeme = .endOfInput from he]
    exact .reject
  | cons t us =>
    split
    all_goals try (rename_i ht; replace ht : t.lexeme = _ := ht)
    · exact .advance (ih.named he ht)
    · exact .advance (.pure ⟨.number ht, by simp [ht]⟩)
    · refine .advance ((ih.expression us).bind ?_)
      rintro n vs ws _ ⟨hn, hcount⟩
      refine .expectMark he fun z zs _ hz => .pure ⟨.group ht hn hz, ?_⟩
      simp_all
    · refine (ih.collection t .rightBracket us).mono fun n _ _ h => ?_
      obtain ⟨ns, vs, z, rfl, rfl, hz, ⟨hns, hcount⟩, -⟩ := h
      refine ⟨.collection ht hns hz, ?_⟩
      simp_all
    · refine (ih.collection t .pipe us).mono fun n _ _ h => ?_
      obtain ⟨ns, vs, z, rfl, rfl, hz, ⟨hns, hcount⟩, hfirst⟩ := h
      refine ⟨.sequence ht hns hfirst hz, ?_⟩
      simp_all
    · exact .advance (ih.doCall he ht)
    · refine .advance ((ih.function .funcParams us).bind ?_)
      rintro r vs ws _ ⟨hr, _⟩
      refine .pure ?_
      rw [List.append_nil]
      exact ⟨.funcLit ht hr.1, by simp [ht, hr.2]⟩
    · exact .reject

theorem unfold_block (owner : Token) (closers : List TokenKind) :
    Takes e (c.unfold.block owner closers) ts fun ns => Derived (.block false ns) := by
  refine .current ?_
  split
  · exact .pure ⟨.empty, rfl⟩
  · cases ts with
    | nil =>
      rw [show (Stream.of e []).tok.lexeme = .endOfInput from he]
      exact .reject
    | cons t us =>
      split
      · rename_i ht
        have ht : t.lexeme = .mark .semicolon := ht
        refine .advance ((ih.block owner closers us).mono fun _ _ _ h => ⟨.separator ht h.1, ?_⟩)
        rw [meet_cons (by rw [ht]; intro h; cases h), h.2]
      · exact .reject
      · exact .reject
      · refine (ih.statement true (t :: us)).bind ?_
        rintro n vs ws _ ⟨hn, hcount⟩
        refine (ih.block owner closers ws).bind ?_
        rintro ns xs _ _ ⟨hns, hcounts⟩
        refine .pure ⟨?_, ?_⟩
        · simpa using .cons hn hns
        · simp_all

theorem conditional (top : Bool) {t : Token} (ht : t.lexeme = .keyword .ifThen) :
    Takes e (c.conditional t) ts fun n us => Derived (.statement top n) (t :: us) := by
  refine (ih.expression ts).bind ?_
  rintro cond us vs _ ⟨hcond, hcount⟩
  refine (ih.block t _ vs).bind ?_
  rintro body ws xs _ ⟨hbody, hcounts⟩
  refine (Takes.behind he (by simp) (fun _ => lexeme_of_keyword) fun y => ih.block y _).bind
    fun other ys zs _ hother => .expectKeyword he fun z _ _ hz => .pure ?_
  cases other with
  | none =>
    obtain rfl : ys = [] := hother
    refine ⟨by simpa using .conditional ht hcond hbody hz, ?_⟩
    simp_all
  | some ns =>
    obtain ⟨y, ys, rfl, hy, hns, hothers⟩ := hother
    refine ⟨by simpa using .alternative ht hcond hbody hy hns hz, ?_⟩
    simp_all [Nat.add_assoc]

theorem whileLoop (top : Bool) {t : Token} (ht : t.lexeme = .keyword .whileLoop) :
    Takes e (c.whileLoop t) ts fun n us => Derived (.statement top n) (t :: us) := by
  refine (ih.expression ts).bind ?_
  rintro cond us vs _ ⟨hcond, hcount⟩
  refine (ih.block t _ vs).bind ?_
  rintro body ws xs _ ⟨hbody, hcounts⟩
  refine .expectKeyword he fun z _ _ hz => .pure ⟨by simpa using .whileLoop ht hcond hbody hz, ?_⟩
  simp_all

theorem forLoop (top : Bool) {t : Token} (ht : t.lexeme = .keyword .forLoop) :
    Takes e (c.forLoop t) ts fun n us => Derived (.statement top n) (t :: us) := by
  refine .expectName he fun v us var hv => expectAssign he fun a vs op hus ha hop => ?_
  refine (ih.expression vs).bind ?_
  rintro start ws xs _ ⟨hstart, hcstart⟩
  refine .expectMark he fun x ys _ hx => ?_
  refine (ih.expression ys).bind ?_
  rintro stop zs rest _ ⟨hstop, hcstop⟩
  refine (Takes.behind he (by simp) (fun _ => lexeme_of_mark) fun _ => ih.expression).bind
    fun step ps qs _ hstep => (ih.block t _ qs).bind ?_
  rintro body bs _ _ ⟨hbody, hcbody⟩
  refine .expectKeyword he fun z _ _ hz => .pure ?_
  cases step with
  | none =>
    obtain rfl : ps = [] := hstep
    refine ⟨by simpa using .forLoop ht hv ha hop hstart hx hstop hbody hz, ?_⟩
    simp_all [meet_name hv, Nat.add_assoc]
  | some n =>
    obtain ⟨y, ps, rfl, hy, hn, hcstep⟩ := hstep
    refine ⟨by simpa using .forStep ht hv ha hop hstart hx hstop hy hn hbody hz, ?_⟩
    simp_all [meet_name hv, Nat.add_assoc]

theorem definition (nested : Bool) {t : Token} (ht : t.lexeme = .keyword .func) :
    Takes e (c.definition nested t) ts fun n us => Derived (.statement (!nested) n) (t :: us) := by
  refine .current ?_
  split
  · rename_i name hl
    cases nested with
    | true => exact Takes.bind (P := fun _ _ _ => False) .throw fun _ _ _ _ h => h.elim
    | false =>
      cases ts with
      | nil => simp [Stream.of, he] at hl
      | cons v us =>
        have hl : v.lexeme = .identifier name := hl
        refine .advance ((ih.function .defParams us).bind ?_)
        rintro r vs _ _ ⟨⟨hr, hcount⟩, x, xs, hvs, hx⟩
        refine .pure ?_
        rw [List.append_nil]
        refine ⟨.definition ht hl hr, ?_⟩
        simp_all [meet_name hl]
  · refine (ih.function .funcParams ts).bind ?_
    rintro r us vs _ ⟨⟨hr, hcount⟩, _⟩
    have hlit : Derives (.unary (.funcLit t.pos r.1 r.2)) (t :: us) := .primary (.funcLit ht hr)
    have hcount : meet (t :: us) vs = (Node.funcLit t.pos r.1 r.2).openings := by
      rw [meet_cons (by rw [ht]; intro h; cases h), hcount]
      rfl
    refine (ih.binary 0 _ (t :: us) vs ⟨.operand hlit,
      hcount⟩ fun _ _ _ _ _ _ => .operand hlit).mono
      fun n ws _ h => ?_
    exact ⟨.plain h.1.1, h.1.2⟩

theorem unfold_statement (nested : Bool) :
    Takes e (c.unfold.statement nested) ts fun n => Derived (.statement (!nested) n) := by
  refine .current ?_
  cases ts with
  | nil =>
    rw [show (Stream.of e []).tok.lexeme = .endOfInput from he]
    exact (ih.expression []).mono fun _ _ _ h => ⟨.plain h.1, h.2⟩
  | cons t us =>
    split
    · exact .advance (ih.conditional he _ ‹_›)
    · exact .advance (ih.whileLoop he _ ‹_›)
    · exact .advance (ih.forLoop he _ ‹_›)
    · rename_i ht
      have ht : t.lexeme = .keyword .ret := ht
      refine .advance ((ih.expression us).bind fun n vs _ _ hn => .pure ?_)
      rw [List.append_nil]
      exact ⟨.ret ht hn.1, by simp [ht, hn.2]⟩
    · exact .reject
    · exact .advance (ih.definition he nested ‹_›)
    · rename_i ht
      have ht : t.lexeme = .keyword .host := ht
      cases nested with
      | true => exact Takes.bind (P := fun _ _ _ => False) .throw fun _ _ _ _ h => h.elim
      | false =>
        refine .advance (.expectName he fun v vs name hv => ?_)
        refine (ih.params he .hostParams).bind ?_
        rintro ps ws _ _ ⟨⟨hps, hcount⟩, x, xs, hws, hx⟩
        refine .pure ?_
        rw [List.append_nil]
        refine ⟨.host ht hv hps, ?_⟩
        simp_all [meet_name hv]
    · exact (ih.expression (t :: us)).mono fun _ _ _ h => ⟨.plain h.1, h.2⟩

theorem unfold : Derivable e c.unfold where
  statement nested _ := ih.unfold_statement he nested
  block owner closers _ := ih.unfold_block he owner closers
  expression _ := ih.unfold_expression
  binary _ _ _ _ hlhs hnext := ih.unfold_binary he hlhs hnext
  unary _ := ih.unfold_unary he
  primary _ := ih.unfold_primary he
  arguments _ := ih.unfold_arguments he
  collection start closer _ := ih.unfold_collection start closer
  elements closer _ := ih.unfold_elements he closer
  doArguments _ := ih.unfold_doArguments he
  function place _ := ih.unfold_function he place
  names _ := ih.unfold_names he

end

end Derivable

variable {e : Token}

theorem derivable_fueled (he : e.lexeme = .endOfInput) (fuel : Nat) :
    Derivable e (.fueled fuel) := by
  induction fuel with
  | zero => constructor <;> intros <;> exact .reject
  | succ fuel ih => exact ih.unfold he

theorem takes_program (he : e.lexeme = .endOfInput) (fuel : Nat) (ts : List Token) :
    Takes e (program fuel) ts fun p us vs =>
      Derived (.block true p) us vs ∧ (Stream.of e vs).tok.kind = .endOfInput := by
  induction fuel generalizing ts with
  | zero => exact .reject
  | succ fuel ih =>
    refine .current ?_
    split
    · rename_i ht
      cases ts with
      | nil => simp [Stream.of, he] at ht
      | cons t us =>
        have ht : t.lexeme = .mark .semicolon := ht
        refine .advance ((ih us).mono fun _ _ _ h => ⟨⟨.separator ht h.1.1, ?_⟩, h.2⟩)
        rw [meet_cons (by rw [ht]; intro h; cases h), h.1.2]
    · rename_i ht
      exact .pure ⟨⟨.empty, rfl⟩, kind_of_lexeme ht⟩
    · refine ((derivable_fueled he fuel).statement false ts).bind ?_
      rintro n us vs _ ⟨hn, hcount⟩
      refine (ih vs).bind ?_
      rintro ns ws xs _ ⟨⟨hns, hcounts⟩, hk⟩
      refine .pure ⟨⟨by simpa using .cons hn hns, ?_⟩, hk⟩
      simp_all [meet_append, Node.openingsAll]

theorem derives_of_program (he : e.lexeme = .endOfInput) {fuel : Nat} {ts : List Token}
    (hts : ∀ t ∈ ts, t.kind ≠ .endOfInput) {p : Program} {s : Stream}
    (h : program fuel (Stream.of e ts) = .ok (p, s)) : Derived (.block true p) ts [] := by
  obtain ⟨us, vs, rfl, -, hp, hk⟩ := takes_program he fuel ts p s h
  cases vs with
  | nil => simpa using hp
  | cons v vs => exact absurd hk (hts v (by simp))

end Parse

namespace Program

theorem ofScan_of_end {e : Token} (he : e.lexeme = .endOfInput) (ts : List Token) :
    ofScan { tokens := ts ++ [e] } = (Parse.ampleProgram (Stream.of e ts)).map Prod.fst := by
  cases ts with
  | nil => exact ofScan_eq (Parse.closed_of he [])
  | cons t ts => exact ofScan_eq (Parse.closed_of he (t :: ts))

theorem derived_of_ofScan {e : Token} {ts : List Token} {p : Program} (he : e.lexeme = .endOfInput)
    (hts : ∀ t ∈ ts, t.kind ≠ .endOfInput) (h : ofScan { tokens := ts ++ [e] } = .ok p) :
    Derived (.block true p) ts [] := by
  rw [ofScan_of_end he] at h
  cases hr : Parse.ampleProgram (Stream.of e ts) with
  | error d => rw [hr] at h; cases h
  | ok r =>
    rw [hr] at h
    obtain rfl : r.1 = p := Except.ok.inj h
    exact Parse.derives_of_program he hts hr

end Program

end RealScript
