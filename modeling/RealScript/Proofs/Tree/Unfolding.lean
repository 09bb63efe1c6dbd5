import RealScript.Proofs.Tree.Grammar

/-! # Parsing without fuel

The functions of the parser call each other on fuel. A stream that ends in the end of the input, or
in a failure, has fewer tokens left behind each token that is taken, so a few units of fuel for each
token are as good as any more. What the functions do with ample fuel satisfies their equations
without it.
-/

namespace RealScript

def Stream.tokens (s : Stream) : List Token := s.tok :: s.rest

def Stream.Closed (s : Stream) : Prop :=
  s.failure = none → (s.tokens.getLast (List.cons_ne_nil _ _)).kind = .endOfInput

namespace Parse

theorem bind_run {α β : Type} (x : Parse α) (f : α → Parse β) (s : Stream) :
    (x >>= f) s = match x s with
      | .ok (a, t) => f a t
      | .error d => .error d := by
  change Except.bind (x s) _ = _
  cases x s <;> rfl

theorem kind_of_lexeme {s : Stream} {l : Lexeme} (h : s.tok.lexeme = l) : s.tok.kind = l.kind := by
  rw [Token.kind, h]

structure Below (n : Nat) (s : Stream) : Prop where
  closed : s.Closed
  fewer : s.rest.length < n

structure Calls where
  statement : Bool → Parse Node
  block : Token → List TokenKind → Parse (List Node)
  expression : Parse Node
  binary : Nat → Node → Parse Node
  unary : Parse Node
  primary : Parse Node
  arguments : Parse (List Node)
  collection : Token → Mark → Parse Node
  elements : Mark → Parse (List Node)
  doArguments : Parse (List Node)
  function : Place → Parse (List String × List Node)
  names : Parse (List String)

namespace Calls

def fueled (n : Nat) : Calls where
  statement := Parse.statement n
  block := Parse.block n
  expression := Parse.expression n
  binary := Parse.binary n
  unary := Parse.unary n
  primary := Parse.primary n
  arguments := Parse.arguments n
  collection := Parse.collection n
  elements := Parse.elements n
  doArguments := Parse.doArguments n
  function := Parse.function n
  names := Parse.names n

variable (c : Calls)

def params (place : Place) : Parse (List String) := do
  let _ ← expect (.mark .leftParen) place
  let found ← if (← current).kind = .mark .rightParen then pure [] else c.names
  let _ ← expect (.mark .rightParen) .closeParams
  return found

def combine (tok : Token) (op : Operator) (least : Nat) (lhs operand : Node) : Parse Node := do
  let tighter := (binaryOperator? (← current)).any (op.precedence < ·.precedence)
  let rhs ← if tighter then c.binary (op.precedence + 1) operand else pure operand
  c.binary least (.binary tok.pos op.spelling lhs rhs)

def named (tok : Token) (name : String) : Parse Node := do
  if (← current).kind = .mark .leftParen then
    advance
    if (← current).kind = .mark .rightParen then
      advance
      return .call tok.pos false name []
    else return .call tok.pos false name (← c.arguments)
  else return .ident tok.pos name

def doCall (tok : Token) : Parse Node := do
  let _ ← expect (.mark .leftParen) .doCall
  match (← current).lexeme with
  | .builtin name =>
    advance
    return .call tok.pos true name (← c.doArguments)
  | _ => reject .expectedBuiltin

def conditional (tok : Token) : Parse Node := do
  let cond ← c.expression
  let body ← c.block tok [.keyword .orElse, .keyword .done]
  let otherwise ← behind? (.keyword .orElse) fun stop => c.block stop [.keyword .done]
  let _ ← expect (.keyword .done) .closeIf
  return .conditional tok.pos cond body otherwise

def whileLoop (tok : Token) : Parse Node := do
  let cond ← c.expression
  let body ← c.block tok [.keyword .done]
  let _ ← expect (.keyword .done) .closeWhile
  return .whileLoop tok.pos cond body

def forLoop (tok : Token) : Parse Node := do
  let var ← expectName .loopVariable
  expectAssign
  let start ← c.expression
  let _ ← expect (.mark .comma) .loopStart
  let stop ← c.expression
  let step ← behind? (.mark .comma) fun _ => c.expression
  let body ← c.block tok [.keyword .done]
  let _ ← expect (.keyword .done) .closeFor
  return .forLoop tok.pos var start stop step body

def definition (nested : Bool) (tok : Token) : Parse Node := do
  match (← current).lexeme with
  | .identifier name =>
    if nested then throw ⟨tok.pos, .nestedFunction name⟩
    advance
    let (params, body) ← c.function .defParams
    return .funcDef tok.pos name params body
  | _ =>
    let (params, body) ← c.function .funcParams
    c.binary 0 (.funcLit tok.pos params body)

def unfold : Calls where
  statement nested := do
    let tok ← current
    match tok.lexeme with
    | .keyword .ifThen => do
      advance
      c.conditional tok
    | .keyword .whileLoop => do
      advance
      c.whileLoop tok
    | .keyword .forLoop => do
      advance
      c.forLoop tok
    | .keyword .ret => do
      advance
      return .ret tok.pos (← c.expression)
    | .keyword .elif => reject fun _ => .elif
    | .keyword .func => do
      advance
      c.definition nested tok
    | .keyword .host => do
      if nested then throw ⟨tok.pos, .nestedHost⟩
      advance
      let name ← expectName .hostName
      return .hostDecl tok.pos name (← c.params .hostParams)
    | _ => c.expression
  block owner closers := do
    let tok ← current
    if closers.contains tok.kind then return []
    match tok.lexeme with
    | .mark .semicolon => do
      advance
      c.block owner closers
    | .endOfInput => reject fun _ => .unterminated owner closers
    | .keyword .elif => reject fun _ => .elif
    | _ => do
      let first ← c.statement true
      return first :: (← c.block owner closers)
  expression := do
    let lhs ← c.unary
    c.binary 0 lhs
  binary least lhs := do
    let tok ← current
    match binaryOperator? tok with
    | none => return lhs
    | some op =>
      if op.precedence < least then return lhs
      advance
      let operand ← c.unary
      c.combine tok op least lhs operand
  unary := do
    let tok ← current
    match tok.lexeme with
    | .operator op =>
      if op.category = .unary then
        advance
        return .unary tok.pos op.spelling (← c.unary)
      else c.primary
    | _ => c.primary
  primary := do
    let tok ← current
    match tok.lexeme with
    | .identifier name => do
      advance
      c.named tok name
    | .number _ value => do
      advance
      return .number tok.pos value
    | .mark .leftParen => do
      advance
      let inner ← c.expression
      let _ ← expect (.mark .rightParen) .closeGroup
      return inner
    | .mark .leftBracket => c.collection tok .rightBracket
    | .mark .pipe => c.collection tok .pipe
    | .keyword .doCall => do
      advance
      c.doCall tok
    | .keyword .func => do
      advance
      let (params, body) ← c.function .funcParams
      return .funcLit tok.pos params body
    | _ => reject .expectedExpression
  arguments := do
    let arg ← c.expression
    match (← current).lexeme with
    | .mark .comma => do
      advance
      return arg :: (← c.arguments)
    | .mark .rightParen => do
      advance
      return [arg]
    | _ => reject .expectedArgumentEnd
  collection start closer := do
    advance
    if (← current).kind = .mark closer then reject fun _ => .emptyCollection
    return .collection start.pos (closer = .pipe) (← c.elements closer)
  elements closer := do
    let element ← c.primary
    let kind := (← current).kind
    if kind = .mark .comma then
      advance
      return element :: (← c.elements closer)
    else if kind = .mark closer then
      advance
      return [element]
    else reject (.expectedElementEnd closer)
  doArguments := do
    match (← current).lexeme with
    | .mark .comma => do
      advance
      let arg ← c.expression
      return arg :: (← c.doArguments)
    | .mark .rightParen => do
      advance
      return []
    | _ => reject .expectedDoEnd
  function place := do
    let ps ← c.params place
    let start ← expect (.mark .leftBrace) .openBody
    let body ← c.block start [.mark .rightBrace]
    let _ ← expect (.mark .rightBrace) .closeBody
    return (ps, body)
  names := do
    let name ← expectName .parameter
    if (← current).kind = .mark .comma then
      advance
      return name :: (← c.names)
    else return [name]

def ample : Calls where
  statement nested s := (fueled (8 * s.rest.length + 8)).statement nested s
  block owner closers s := (fueled (8 * s.rest.length + 8)).block owner closers s
  expression s := (fueled (8 * s.rest.length + 8)).expression s
  binary least lhs s := (fueled (8 * s.rest.length + 8)).binary least lhs s
  unary s := (fueled (8 * s.rest.length + 8)).unary s
  primary s := (fueled (8 * s.rest.length + 8)).primary s
  arguments s := (fueled (8 * s.rest.length + 8)).arguments s
  collection start closer s := (fueled (8 * s.rest.length + 8)).collection start closer s
  elements closer s := (fueled (8 * s.rest.length + 8)).elements closer s
  doArguments s := (fueled (8 * s.rest.length + 8)).doArguments s
  function place s := (fueled (8 * s.rest.length + 8)).function place s
  names s := (fueled (8 * s.rest.length + 8)).names s

end Calls

/-! ## Agreement -/

section Agree

variable {α β : Type}

/-- Two parsers do the same on a stream, and where they end satisfies a condition. -/
def Agree (x y : Parse α) (s : Stream) (P : Stream → Prop) : Prop :=
  x s = y s ∧ ∀ a t, y s = .ok (a, t) → P t

namespace Agree

variable {x y : Parse α} {f g : α → Parse β} {s : Stream} {P Q : Stream → Prop}

theorem mono (h : Agree x y s P) (hp : ∀ t, P t → Q t) : Agree x y s Q :=
  ⟨h.1, fun a t ht => hp t (h.2 a t ht)⟩

theorem bind (hx : Agree x y s P) (hf : ∀ a t, P t → Agree (f a) (g a) t Q) :
    Agree (x >>= f) (y >>= g) s Q := by
  obtain ⟨hxy, hp⟩ := hx
  unfold Agree
  rw [bind_run, bind_run, hxy]
  cases hy : y s with
  | error d => exact ⟨rfl, fun _ _ h => by cases h⟩
  | ok r =>
    obtain ⟨a, t⟩ := r
    exact hf a t (hp a t hy)

theorem join {z : Parse α} (hy : Agree x y s P) (hz : Agree x z s Q) : Agree y z s Q :=
  ⟨hy.1.symm.trans hz.1, hz.2⟩

theorem to_right {z : Parse α} (h : Agree x y s P) (hz : y s = z s) : Agree x z s P :=
  ⟨h.1.trans hz, fun a t ht => h.2 a t (hz.trans ht)⟩

theorem pure {a : α} (h : P s) : Agree (pure a) (pure a) s P := by
  refine ⟨rfl, ?_⟩
  rintro b t ⟨⟩
  exact h

theorem weaken {k m : Nat} (h : Agree x y s (Below k)) (hk : k ≤ m) : Agree x y s (Below m) :=
  h.mono fun _ ht => ⟨ht.closed, Nat.lt_of_lt_of_le ht.fewer hk⟩

theorem map {f : α → β} {k m : Nat} (h : Agree x y s (Below k)) (hk : k ≤ m) :
    Agree (x >>= fun a => Pure.pure (f a)) (y >>= fun a => Pure.pure (f a)) s (Below m) :=
  h.bind fun _ _ ht => .pure ⟨ht.closed, Nat.lt_of_lt_of_le ht.fewer hk⟩

theorem throw {d : Diagnostic} : Agree (throw d : Parse α) (throw d) s P := ⟨rfl,
    fun _ _ h => by cases h⟩

theorem reject {cause : Token → Cause} : Agree (reject cause : Parse α) (reject cause) s P :=
  ⟨rfl, fun _ _ h => by cases h⟩

theorem current {f g : Token → Parse β} (h : Agree (f s.tok) (g s.tok) s Q) :
    Agree (current >>= f) (current >>= g) s Q := h

theorem ite_bind {c : Prop} [Decidable c] {x₁ x₂ y₁ y₂ : Parse α} (h₁ : c → Agree x₁ y₁ s P)
    (h₂ : ¬ c → Agree x₂ y₂ s P) (hf : ∀ a t, P t → Agree (f a) (g a) t Q) :
    Agree (if c then x₁ >>= f else x₂ >>= f) (if c then y₁ >>= g else y₂ >>= g) s Q := by
  split
  · exact (h₁ ‹_›).bind hf
  · exact (h₂ ‹_›).bind hf

end Agree

end Agree

variable {s : Stream}

theorem advance_agree (hs : s.Closed) (hk : s.tok.kind ≠ .endOfInput) :
    Agree advance advance s (Below s.rest.length) := by
  refine ⟨rfl, ?_⟩
  rintro ⟨⟩ t ht
  obtain ⟨tok, rest, failure⟩ := s
  cases rest with
  | nil =>
    cases failure with
    | some d => cases ht
    | none => exact absurd (hs rfl) hk
  | cons u rest =>
    obtain ⟨-, rfl⟩ := Prod.mk.inj (Except.ok.inj ht)
    exact ⟨fun hf => by simpa [Stream.tokens] using hs hf, Nat.lt_succ_self _⟩

theorem take_agree (hs : s.Closed) {l : Lexeme} (hl : s.tok.lexeme = l)
    (hne : decide (l.kind = .endOfInput) = false) : Agree advance advance s (Below s.rest.length) :=
  advance_agree hs (by rw [kind_of_lexeme hl]; exact of_decide_eq_false hne)

theorem expect_agree (hs : s.Closed) {kind : TokenKind} (hk : kind ≠ .endOfInput) (place : Place) :
    Agree (expect kind place) (expect kind place) s (Below s.rest.length) := by
  apply Agree.current
  split
  · rename_i he
    exact (advance_agree hs (he ▸ hk)).map (Nat.le_refl _)
  · exact .reject

theorem expectName_agree (hs : s.Closed) (place : Place) :
    Agree (expectName place) (expectName place) s (Below s.rest.length) :=
  (expect_agree hs (by simp) place).bind fun _ _ ht => .pure ht

theorem expectAssign_agree (hs : s.Closed) :
    Agree expectAssign expectAssign s (Below s.rest.length) := by
  apply Agree.current
  split
  · rename_i hl
    exact take_agree hs hl rfl
  · exact .reject

theorem behind?_agree {α : Type} (hs : s.Closed) {kind : TokenKind} (hk : kind ≠ .endOfInput)
    {p q : Token → Parse α} {n : Nat} (hn : s.rest.length < n)
    (h : ∀ t, Below s.rest.length t → Agree (p s.tok) (q s.tok) t (Below n)) :
    Agree (behind? kind p) (behind? kind q) s (Below n) := by
  apply Agree.current
  split
  · rename_i he
    apply (advance_agree hs (he ▸ hk)).bind
    intro _ t ht
    exact (h t ht).map (Nat.le_refl _)
  · exact .pure ⟨hs, hn⟩

/-! ## Functions that call alike -/

/-- The functions agree on the streams for which `m` units of fuel are enough, and take a token,
unless they may give what they were given. -/
structure Alike (c d : Calls) (m : Nat) : Prop where
  statement (nested : Bool) (s : Stream) : s.Closed → 8 * s.rest.length + 5 ≤ m →
    Agree (c.statement nested) (d.statement nested) s (Below s.rest.length)
  block (owner : Token) (closers : List TokenKind) (s : Stream) : s.Closed →
    8 * s.rest.length + 6 ≤ m →
    Agree (c.block owner closers) (d.block owner closers) s (Below (s.rest.length + 1))
  expression (s : Stream) : s.Closed → 8 * s.rest.length + 4 ≤ m →
    Agree c.expression d.expression s (Below s.rest.length)
  binary (least : Nat) (lhs : Node) (s : Stream) : s.Closed → 8 * s.rest.length + 1 ≤ m →
    Agree (c.binary least lhs) (d.binary least lhs) s (Below (s.rest.length + 1))
  unary (s : Stream) : s.Closed → 8 * s.rest.length + 3 ≤ m →
    Agree c.unary d.unary s (Below s.rest.length)
  primary (s : Stream) : s.Closed → 8 * s.rest.length + 2 ≤ m →
    Agree c.primary d.primary s (Below s.rest.length)
  arguments (s : Stream) : s.Closed → 8 * s.rest.length + 5 ≤ m →
    Agree c.arguments d.arguments s (Below s.rest.length)
  collection (start : Token) (closer : Mark) (s : Stream) : s.Closed → s.tok.kind ≠ .endOfInput →
    8 * s.rest.length + 1 ≤ m →
    Agree (c.collection start closer) (d.collection start closer) s (Below s.rest.length)
  elements (closer : Mark) (s : Stream) : s.Closed → 8 * s.rest.length + 3 ≤ m →
    Agree (c.elements closer) (d.elements closer) s (Below s.rest.length)
  doArguments (s : Stream) : s.Closed → 8 * s.rest.length + 1 ≤ m →
    Agree c.doArguments d.doArguments s (Below s.rest.length)
  function (place : Place) (s : Stream) : s.Closed → 8 * s.rest.length + 1 ≤ m →
    Agree (c.function place) (d.function place) s (Below s.rest.length)
  names (s : Stream) : s.Closed → 8 * s.rest.length + 1 ≤ m →
    Agree c.names d.names s (Below s.rest.length)

namespace Alike

variable {c d : Calls} {m : Nat}

section

variable (ih : Alike c d m)

include ih

theorem unfold_expression (hs : s.Closed) (hm : 8 * s.rest.length + 4 ≤ m + 1) :
    Agree c.unfold.expression d.unfold.expression s (Below s.rest.length) := by
  apply (ih.unary s hs (by omega)).bind
  rintro lhs t ⟨ht, hlt⟩
  exact (ih.binary 0 lhs t ht (by omega)).weaken (by omega)

theorem unfold_binary (least : Nat) (lhs : Node) (hs : s.Closed)
    (hm : 8 * s.rest.length + 1 ≤ m + 1) :
    Agree (c.unfold.binary least lhs) (d.unfold.binary least lhs) s
    (Below (s.rest.length + 1)) := by
  apply Agree.current
  split
  · exact .pure ⟨hs, by omega⟩
  · rename_i op hop
    have hk : s.tok.kind ≠ .endOfInput := by
      intro hk
      cases hl : s.tok.lexeme <;> simp_all [binaryOperator?, Token.kind, Lexeme.kind]
    split
    · exact .pure ⟨hs, by omega⟩
    · apply (advance_agree hs hk).bind
      rintro _ t ⟨ht, hlt⟩
      apply (ih.unary t ht (by omega)).bind
      rintro operand u ⟨hu, hlt'⟩
      apply Agree.current
      apply Agree.ite_bind (P := Below (u.rest.length + 1))
      · intro _
        exact ih.binary _ operand u hu (by omega)
      · intro _
        exact .pure ⟨hu, by omega⟩
      · rintro rhs v ⟨hv, hle⟩
        exact (ih.binary least _ v hv (by omega)).weaken (by omega)

theorem unfold_unary (hs : s.Closed) (hm : 8 * s.rest.length + 3 ≤ m + 1) :
    Agree c.unfold.unary d.unfold.unary s (Below s.rest.length) := by
  apply Agree.current
  split
  · rename_i op hl
    split
    · apply (take_agree hs hl rfl).bind
      rintro _ t ⟨ht, hlt⟩
      exact (ih.unary t ht (by omega)).map (by omega)
    · exact ih.primary s hs (by omega)
  · exact ih.primary s hs (by omega)

theorem unfold_arguments (hs : s.Closed) (hm : 8 * s.rest.length + 5 ≤ m + 1) :
    Agree c.unfold.arguments d.unfold.arguments s (Below s.rest.length) := by
  apply (ih.expression s hs (by omega)).bind
  rintro arg t ⟨ht, hlt⟩
  apply Agree.current
  split
  · rename_i hl
    apply (take_agree ht hl rfl).bind
    rintro _ u ⟨hu, hlt'⟩
    exact (ih.arguments u hu (by omega)).map (by omega)
  · rename_i hl
    exact (take_agree ht hl rfl).map (by omega)
  · exact .reject

theorem unfold_elements (closer : Mark) (hs : s.Closed) (hm : 8 * s.rest.length + 3 ≤ m + 1) :
    Agree (c.unfold.elements closer) (d.unfold.elements closer) s (Below s.rest.length) := by
  apply (ih.primary s hs (by omega)).bind
  rintro element t ⟨ht, hlt⟩
  apply Agree.current
  dsimp only
  split
  · rename_i hk
    apply (advance_agree ht (by rw [hk]; simp)).bind
    rintro _ u ⟨hu, hlt'⟩
    exact (ih.elements closer u hu (by omega)).map (by omega)
  · split
    · rename_i hk
      exact (advance_agree ht (by rw [hk]; simp)).map (by omega)
    · exact .reject

theorem unfold_collection (start : Token) (closer : Mark) (hs : s.Closed)
    (hk : s.tok.kind ≠ .endOfInput) (hm : 8 * s.rest.length + 1 ≤ m + 1) :
    Agree (c.unfold.collection start closer) (d.unfold.collection start closer) s
      (Below s.rest.length) := by
  apply (advance_agree hs hk).bind
  rintro _ t ⟨ht, hlt⟩
  apply Agree.current
  dsimp only
  split
  · exact Agree.bind (P := fun _ => False) .reject fun _ _ h => h.elim
  · exact (ih.elements closer t ht (by omega)).map (by omega)

theorem unfold_doArguments (hs : s.Closed) (hm : 8 * s.rest.length + 1 ≤ m + 1) :
    Agree c.unfold.doArguments d.unfold.doArguments s (Below s.rest.length) := by
  apply Agree.current
  split
  · rename_i hl
    apply (take_agree hs hl rfl).bind
    rintro _ t ⟨ht, hlt⟩
    apply (ih.expression t ht (by omega)).bind
    rintro arg u ⟨hu, hlt'⟩
    exact (ih.doArguments u hu (by omega)).map (by omega)
  · rename_i hl
    exact (take_agree hs hl rfl).map (Nat.le_refl _)
  · exact .reject

theorem unfold_names (hs : s.Closed) (hm : 8 * s.rest.length + 1 ≤ m + 1) :
    Agree c.unfold.names d.unfold.names s (Below s.rest.length) := by
  apply (expectName_agree hs .parameter).bind
  rintro name t ⟨ht, hlt⟩
  apply Agree.current
  split
  · rename_i hk
    apply (advance_agree ht (by rw [hk]; simp)).bind
    rintro _ u ⟨hu, hlt'⟩
    exact (ih.names u hu (by omega)).map (by omega)
  · exact .pure ⟨ht, hlt⟩

theorem params (place : Place) (hs : s.Closed) (hm : 8 * s.rest.length ≤ m) :
    Agree (c.params place) (d.params place) s (Below s.rest.length) := by
  apply (expect_agree hs (by simp) place).bind
  rintro _ t ⟨ht, hlt⟩
  apply Agree.current
  apply Agree.ite_bind (P := Below (t.rest.length + 1))
  · intro _
    exact .pure ⟨ht, by omega⟩
  · intro _
    exact (ih.names t ht (by omega)).weaken (by omega)
  · rintro found u ⟨hu, hlt'⟩
    exact (expect_agree hu (by simp) .closeParams).map (by omega)

theorem unfold_function (place : Place) (hs : s.Closed) (hm : 8 * s.rest.length + 1 ≤ m + 1) :
    Agree (c.unfold.function place) (d.unfold.function place) s (Below s.rest.length) := by
  apply (ih.params place hs (by omega)).bind
  rintro ps t ⟨ht, hlt⟩
  apply (expect_agree ht (by simp) .openBody).bind
  rintro start u ⟨hu, hlt'⟩
  apply (ih.block start _ u hu (by omega)).bind
  rintro body v ⟨hv, hle⟩
  exact (expect_agree hv (by simp) .closeBody).map (by omega)

theorem unfold_primary (hs : s.Closed) (hm : 8 * s.rest.length + 2 ≤ m + 1) :
    Agree c.unfold.primary d.unfold.primary s (Below s.rest.length) := by
  apply Agree.current
  split
  · rename_i name hl
    apply (take_agree hs hl rfl).bind
    rintro _ t ⟨ht, hlt⟩
    apply Agree.current
    split
    · rename_i hk
      apply (advance_agree ht (by rw [hk]; simp)).bind
      rintro _ u ⟨hu, hlt'⟩
      apply Agree.current
      split
      · rename_i hk'
        exact (advance_agree hu (by rw [hk']; simp)).map (by omega)
      · exact (ih.arguments u hu (by omega)).map (by omega)
    · exact .pure ⟨ht, hlt⟩
  · rename_i hl
    exact (take_agree hs hl rfl).map (Nat.le_refl _)
  · rename_i hl
    apply (take_agree hs hl rfl).bind
    rintro _ t ⟨ht, hlt⟩
    apply (ih.expression t ht (by omega)).bind
    rintro inner u ⟨hu, hlt'⟩
    exact (expect_agree hu (by simp) .closeGroup).map (by omega)
  · exact ih.collection _ _ s hs (by rw [kind_of_lexeme ‹_›]; intro h; cases h) (by omega)
  · exact ih.collection _ _ s hs (by rw [kind_of_lexeme ‹_›]; intro h; cases h) (by omega)
  · rename_i hl
    apply (take_agree hs hl rfl).bind
    rintro _ t ⟨ht, hlt⟩
    apply (expect_agree ht (by simp) .doCall).bind
    rintro _ u ⟨hu, hlt'⟩
    apply Agree.current
    split
    · rename_i name hname
      apply (take_agree hu hname rfl).bind
      rintro _ v ⟨hv, hv'⟩
      exact (ih.doArguments v hv (by omega)).map (by omega)
    · exact .reject
  · rename_i hl
    apply (take_agree hs hl rfl).bind
    rintro _ t ⟨ht, hlt⟩
    exact (ih.function .funcParams t ht (by omega)).map (by omega)
  · exact .reject

theorem unfold_block (owner : Token) (closers : List TokenKind) (hs : s.Closed)
    (hm : 8 * s.rest.length + 6 ≤ m + 1) :
    Agree (c.unfold.block owner closers) (d.unfold.block owner closers) s
      (Below (s.rest.length + 1)) := by
  apply Agree.current
  split
  · exact .pure ⟨hs, by omega⟩
  · split
    · rename_i hl
      apply (take_agree hs hl rfl).bind
      rintro _ t ⟨ht, hlt⟩
      exact (ih.block owner closers t ht (by omega)).weaken (by omega)
    · exact .reject
    · exact .reject
    · apply (ih.statement true s hs (by omega)).bind
      rintro first t ⟨ht, hlt⟩
      exact (ih.block owner closers t ht (by omega)).map (by omega)

theorem unfold_statement (nested : Bool) (hs : s.Closed) (hm : 8 * s.rest.length + 5 ≤ m + 1) :
    Agree (c.unfold.statement nested) (d.unfold.statement nested) s (Below s.rest.length) := by
  apply Agree.current
  split
  · rename_i hl
    apply (take_agree hs hl rfl).bind
    rintro _ t ⟨ht, hlt⟩
    apply (ih.expression t ht (by omega)).bind
    rintro cond u ⟨hu, hlt'⟩
    apply (ih.block _ _ u hu (by omega)).bind
    rintro body v ⟨hv, hle⟩
    apply (behind?_agree hv (by simp) (Nat.lt_succ_self _) _).bind
    · rintro _ w ⟨hw, hle'⟩
      exact (expect_agree hw (by simp) .closeIf).map (by omega)
    · rintro w ⟨hw, hlt''⟩
      exact (ih.block _ _ w hw (by omega)).weaken (by omega)
  · rename_i hl
    apply (take_agree hs hl rfl).bind
    rintro _ t ⟨ht, hlt⟩
    apply (ih.expression t ht (by omega)).bind
    rintro cond u ⟨hu, hlt'⟩
    apply (ih.block _ _ u hu (by omega)).bind
    rintro body v ⟨hv, hle⟩
    exact (expect_agree hv (by simp) .closeWhile).map (by omega)
  · rename_i hl
    apply (take_agree hs hl rfl).bind
    rintro _ t ⟨ht, hlt⟩
    apply (expectName_agree ht .loopVariable).bind
    rintro var u ⟨hu, hlt'⟩
    apply (expectAssign_agree hu).bind
    rintro _ v ⟨hv, hlt''⟩
    apply (ih.expression v hv (by omega)).bind
    rintro start w ⟨hw, hw'⟩
    apply (expect_agree hw (by simp) .loopStart).bind
    rintro _ x ⟨hx, hx'⟩
    apply (ih.expression x hx (by omega)).bind
    rintro stop y ⟨hy, hy'⟩
    apply (behind?_agree hy (by simp) (Nat.lt_succ_self _) _).bind
    · rintro step z ⟨hz, hz'⟩
      apply (ih.block _ _ z hz (by omega)).bind
      rintro body q ⟨hq, hq'⟩
      exact (expect_agree hq (by simp) .closeFor).map (by omega)
    · rintro z ⟨hz, hz'⟩
      exact (ih.expression z hz (by omega)).weaken (by omega)
  · rename_i hl
    apply (take_agree hs hl rfl).bind
    rintro _ t ⟨ht, hlt⟩
    exact (ih.expression t ht (by omega)).map (by omega)
  · exact .reject
  · rename_i hl
    apply (take_agree hs hl rfl).bind
    rintro _ t ⟨ht, hlt⟩
    apply Agree.current
    split
    · rename_i name hname
      dsimp only
      split
      · exact Agree.bind (P := fun _ => False) .throw fun _ _ h => h.elim
      · apply (take_agree ht hname rfl).bind
        rintro _ u ⟨hu, hlt'⟩
        exact (ih.function .defParams u hu (by omega)).map (by omega)
    · apply (ih.function .funcParams t ht (by omega)).bind
      rintro _ u ⟨hu, hlt'⟩
      exact (ih.binary 0 _ u hu (by omega)).weaken (by omega)
  · rename_i hl
    dsimp only
    split
    · exact Agree.bind (P := fun _ => False) .throw fun _ _ h => h.elim
    · apply (take_agree hs hl rfl).bind
      rintro _ t ⟨ht, hlt⟩
      apply (expectName_agree ht .hostName).bind
      rintro name u ⟨hu, hlt'⟩
      exact (ih.params .hostParams hu (by omega)).map (by omega)
  · exact ih.expression s hs (by omega)

theorem unfold : Alike c.unfold d.unfold (m + 1) where
  statement nested _ := ih.unfold_statement nested
  block owner closers _ := ih.unfold_block owner closers
  expression _ := ih.unfold_expression
  binary least lhs _ := ih.unfold_binary least lhs
  unary _ := ih.unfold_unary
  primary _ := ih.unfold_primary
  arguments _ := ih.unfold_arguments
  collection start closer _ := ih.unfold_collection start closer
  elements closer _ := ih.unfold_elements closer
  doArguments _ := ih.unfold_doArguments
  function place _ := ih.unfold_function place
  names _ := ih.unfold_names

end

theorem join {e : Calls} (hd : Alike c d m) (he : Alike c e m) : Alike d e m where
  statement nested s hs hm := (hd.statement nested s hs hm).join (he.statement nested s hs hm)
  block owner closers s hs hm := (hd.block owner closers s hs hm).join
    (he.block owner closers s hs hm)
  expression s hs hm := (hd.expression s hs hm).join (he.expression s hs hm)
  binary least lhs s hs hm := (hd.binary least lhs s hs hm).join (he.binary least lhs s hs hm)
  unary s hs hm := (hd.unary s hs hm).join (he.unary s hs hm)
  primary s hs hm := (hd.primary s hs hm).join (he.primary s hs hm)
  arguments s hs hm := (hd.arguments s hs hm).join (he.arguments s hs hm)
  collection start closer s hs hk hm :=
    (hd.collection start closer s hs hk hm).join (he.collection start closer s hs hk hm)
  elements closer s hs hm := (hd.elements closer s hs hm).join (he.elements closer s hs hm)
  doArguments s hs hm := (hd.doArguments s hs hm).join (he.doArguments s hs hm)
  function place s hs hm := (hd.function place s hs hm).join (he.function place s hs hm)
  names s hs hm := (hd.names s hs hm).join (he.names s hs hm)

end Alike

open Calls

theorem alike_fueled (m n n' : Nat) (hn : m ≤ n) (hn' : m ≤ n') :
    Alike (fueled n) (fueled n') m := by
  induction m generalizing n n' with
  | zero => constructor <;> intros <;> omega
  | succ m ih =>
    cases n with
    | zero => omega
    | succ n =>
      cases n' with
      | zero => omega
      | succ n' => exact (ih n n' (by omega) (by omega)).unfold

theorem alike_at {k m n : Nat} (s : Stream) (hk : k ≤ 8) (hm : 8 * s.rest.length + k ≤ m)
    (hn : m ≤ n) :
    Alike (fueled n) (fueled (8 * s.rest.length + 8)) (8 * s.rest.length + k) :=
  alike_fueled _ _ _ (Nat.le_trans hm hn) (Nat.add_le_add_left hk _)

theorem alike_fueled_ample {m n : Nat} (hn : m ≤ n) : Alike (fueled n) ample m where
  statement nested s hs hm :=
    ((alike_at s (by decide) hm hn).statement nested s hs (Nat.le_refl _)).to_right rfl
  block owner closers s hs hm :=
    ((alike_at s (by decide) hm hn).block owner closers s hs (Nat.le_refl _)).to_right rfl
  expression s hs hm :=
    ((alike_at s (by decide) hm hn).expression s hs (Nat.le_refl _)).to_right rfl
  binary least lhs s hs hm :=
    ((alike_at s (by decide) hm hn).binary least lhs s hs (Nat.le_refl _)).to_right rfl
  unary s hs hm := ((alike_at s (by decide) hm hn).unary s hs (Nat.le_refl _)).to_right rfl
  primary s hs hm := ((alike_at s (by decide) hm hn).primary s hs (Nat.le_refl _)).to_right rfl
  arguments s hs hm := ((alike_at s (by decide) hm hn).arguments s hs (Nat.le_refl _)).to_right rfl
  collection start closer s hs hk hm :=
    ((alike_at s (by decide) hm hn).collection start closer s hs hk (Nat.le_refl _)).to_right rfl
  elements closer s hs hm :=
    ((alike_at s (by decide) hm hn).elements closer s hs (Nat.le_refl _)).to_right rfl
  doArguments s hs hm :=
    ((alike_at s (by decide) hm hn).doArguments s hs (Nat.le_refl _)).to_right rfl
  function place s hs hm :=
    ((alike_at s (by decide) hm hn).function place s hs (Nat.le_refl _)).to_right rfl
  names s hs hm := ((alike_at s (by decide) hm hn).names s hs (Nat.le_refl _)).to_right rfl

theorem alike_unfold (m : Nat) : Alike ample ample.unfold (m + 1) :=
  (alike_fueled_ample (Nat.le_refl (m + 1))).join (alike_fueled_ample (Nat.le_refl m)).unfold

section Equations

theorem ample_statement (nested : Bool) (s : Stream) (hs : s.Closed) :
    ample.statement nested s = ample.unfold.statement nested s :=
  ((alike_unfold _).statement nested s hs (Nat.le_refl _)).1

theorem ample_block (owner : Token) (closers : List TokenKind) (s : Stream) (hs : s.Closed) :
    ample.block owner closers s = ample.unfold.block owner closers s :=
  ((alike_unfold _).block owner closers s hs (Nat.le_refl _)).1

theorem ample_binary (least : Nat) (lhs : Node) (s : Stream) (hs : s.Closed) :
    ample.binary least lhs s = ample.unfold.binary least lhs s :=
  ((alike_unfold _).binary least lhs s hs (Nat.le_refl _)).1

theorem ample_elements (closer : Mark) (s : Stream) (hs : s.Closed) :
    ample.elements closer s = ample.unfold.elements closer s :=
  ((alike_unfold _).elements closer s hs (Nat.le_refl _)).1

theorem ample_function (place : Place) (s : Stream) (hs : s.Closed) :
    ample.function place s = ample.unfold.function place s :=
  ((alike_unfold _).function place s hs (Nat.le_refl _)).1

variable (s) (hs : s.Closed)

include hs

theorem ample_expression : ample.expression s = ample.unfold.expression s :=
  ((alike_unfold _).expression s hs (Nat.le_refl _)).1

theorem ample_unary : ample.unary s = ample.unfold.unary s :=
  ((alike_unfold _).unary s hs (Nat.le_refl _)).1

theorem ample_primary : ample.primary s = ample.unfold.primary s :=
  ((alike_unfold _).primary s hs (Nat.le_refl _)).1

theorem ample_arguments : ample.arguments s = ample.unfold.arguments s :=
  ((alike_unfold _).arguments s hs (Nat.le_refl _)).1

theorem ample_doArguments : ample.doArguments s = ample.unfold.doArguments s :=
  ((alike_unfold _).doArguments s hs (Nat.le_refl _)).1

theorem ample_names : ample.names s = ample.unfold.names s :=
  ((alike_unfold _).names s hs (Nat.le_refl _)).1

end Equations

def ampleProgram : Parse Program := fun s => program (8 * s.rest.length + 8) s

def programBy (statement : Parse Node) (rest : Parse Program) : Parse Program := do
  match (← current).lexeme with
  | .mark .semicolon => do
    advance
    rest
  | .endOfInput => return []
  | _ => do
    let first ← statement
    return first :: (← rest)

theorem programBy_agree {x y : Parse Node} {p q : Parse Program} (hs : s.Closed)
    (hx : Agree x y s (Below s.rest.length))
    (h : ∀ t, Below s.rest.length t → Agree p q t fun _ => True) :
    Agree (programBy x p) (programBy y q) s fun _ => True := by
  apply Agree.current
  split
  · rename_i hl
    apply (take_agree hs hl rfl).bind
    intro _ t ht
    exact h t ht
  · exact .pure trivial
  · apply hx.bind
    intro first t ht
    apply (h t ht).bind
    intro _ u _
    exact .pure trivial

theorem program_agree (n n' : Nat) (s : Stream) (hs : s.Closed) (hn : 8 * s.rest.length + 6 ≤ n)
    (hn' : 8 * s.rest.length + 6 ≤ n') : Agree (program n) (program n') s fun _ => True := by
  induction n generalizing n' s with
  | zero => omega
  | succ n ih =>
    cases n' with
    | zero => omega
    | succ n' =>
      have hst := (alike_fueled (8 * s.rest.length + 5) n n' (by omega)
        (by omega)).statement false s
        hs (Nat.le_refl _)
      apply programBy_agree hs hst
      rintro t ⟨ht, hlt⟩
      exact ih n' t ht (by omega) (by omega)

theorem ampleProgram_eq (hs : s.Closed) :
    ampleProgram s = programBy (ample.statement false) ampleProgram s := by
  have hst := (alike_fueled_ample (m := 8 * s.rest.length + 5) (n := 8 * s.rest.length + 7)
    (by omega)).statement false s hs (Nat.le_refl _)
  have hp (t : Stream) (ht : Below s.rest.length t) :
      Agree (program (8 * s.rest.length + 7)) ampleProgram t fun _ => True := by
    obtain ⟨ht, hlt⟩ := ht
    have h := program_agree (8 * s.rest.length + 7) (8 * t.rest.length + 8) t ht
      (by omega) (by omega)
    exact h.to_right rfl
  exact (programBy_agree hs hst hp).1

end Parse

theorem Program.ofScan_eq {t : Token} {rest : List Token} {failure : Option Diagnostic}
    (h : Stream.Closed ⟨t, rest, failure⟩) :
    ofScan ⟨t :: rest, failure⟩ = (Parse.ampleProgram ⟨t, rest, failure⟩).map Prod.fst := by
  have h := Parse.program_agree (8 * (rest.length + 2)) (8 * rest.length + 8) ⟨t, rest, failure⟩ h
    (by dsimp only; omega) (by dsimp only; omega)
  exact congrArg (Except.map Prod.fst) h.1

end RealScript
