import RealScript.Proofs.Tree.Printed
import RealScript.Proofs.Tree.Recognition

/-! # Reading printed trees

What is printed is read back token by token, as long as no header runs on into its body. A sequence
that starts with a sequence is refused. Both are said of a single run, which succeeds or fails by
what is in the tree.
-/

namespace RealScript

variable {n : Node} {ls : List Lexeme} {kind : TokenKind} {g : Bool}

variable {level : Level} {ps : List String} {start : Node}

namespace Node

mutual

def unplaced : Node → Node
  | .number _ x => .number {} x
  | .ident _ name => .ident {} name
  | .unary _ op x => .unary {} op (unplaced x)
  | .binary _ op l r => .binary {} op (unplaced l) (unplaced r)
  | .call _ builtin callee args => .call {} builtin callee (unplacedAll args)
  | .collection _ sequence elements => .collection {} sequence (unplacedAll elements)
  | .conditional _ c body none => .conditional {} (unplaced c) (unplacedAll body) none
  | .conditional _ c body (some otherwise) =>
    .conditional {} (unplaced c) (unplacedAll body) (some (unplacedAll otherwise))
  | .whileLoop _ c body => .whileLoop {} (unplaced c) (unplacedAll body)
  | .forLoop _ var start stop none body =>
    .forLoop {} var (unplaced start) (unplaced stop) none (unplacedAll body)
  | .forLoop _ var start stop (some step) body =>
    .forLoop {} var (unplaced start) (unplaced stop) (some (unplaced step)) (unplacedAll body)
  | .funcLit _ params body => .funcLit {} params (unplacedAll body)
  | .funcDef _ name params body => .funcDef {} name params (unplacedAll body)
  | .hostDecl _ name params => .hostDecl {} name params
  | .ret _ x => .ret {} (unplaced x)

def unplacedAll : List Node → List Node
  | [] => []
  | n :: ns => unplaced n :: unplacedAll ns

end

/-! ## What runs on -/

def endsInName : Node → Bool
  | .ident _ _ => true
  | .unary _ _ x => x.endsInName
  | _ => false

def startsInParen (statement : Bool) : Node → Bool
  | .binary _ op l _ => if statement && op == "=" then l.startsInParen false else true
  | _ => false

def spills : Node → Bool
  | .conditional _ c body _ | .whileLoop _ c body | .forLoop _ _ _ c none body
  | .forLoop _ _ _ _ (some c) body => c.endsInName && body.head?.any (startsInParen true)
  | _ => false

def isSequence : Node → Bool
  | .collection _ sequence _ => sequence
  | _ => false

def doubled : Node → Bool
  | .collection _ sequence elements => sequence && elements.head?.any isSequence
  | _ => false

def Calm (n : Node) : Prop := ∀ m ∈ n.preorder, m.spills = false

def CalmAll (ns : List Node) : Prop := ∀ m ∈ preorderAll ns, m.spills = false

def single (n : Node) : Bool := n.preorder.all (!·.doubled)

def singleAll (ns : List Node) : Bool := (preorderAll ns).all (!·.doubled)

theorem calmAll_cons {ns : List Node} : CalmAll (n :: ns) ↔ n.Calm ∧ CalmAll ns := by
  simp [CalmAll, Calm, preorderAll, or_imp, forall_and]

theorem singleAll_cons (n : Node) (ns : List Node) :
    singleAll (n :: ns) = (n.single && singleAll ns) := by
  simp [singleAll, single, preorderAll]

/-! ## First tokens -/

theorem head_operand (hn : n.Shaped .operand) :
    ∃ l ls, n.lexemes false = l :: ls ∧ l.opensExpression = true ∧
      (l = .mark .leftParen ↔ n.startsInParen false = true) ∧
      (l = .mark .pipe ↔ n.isSequence = true) ∧
      (∀ op, l = .operator op → n.isUnary = true) ∧
      (l = .keyword .func → ∃ ms, ls = .mark .leftParen :: ms) := by
  cases n with
  | number | ident =>
    exact ⟨_, _, rfl, rfl, by simp [startsInParen], by simp [isSequence], by simp, by simp⟩
  | unary _ op x =>
    obtain ⟨rfl, -⟩ := hn
    exact ⟨.operator ⟨"not", .unary, 0⟩, _, rfl, rfl, by simp [startsInParen], by simp [isSequence],
      fun _ _ => rfl, by simp⟩
  | binary =>
    exact ⟨_, _, lexemes_group _ _ _ _ (.inl rfl),
      rfl, by simp [startsInParen], by simp [isSequence], by simp,
      fun h => by cases h⟩
  | call _ builtin =>
    cases builtin with
    | true =>
      exact ⟨_,
      _, lexemes_builtin .., rfl, by simp [startsInParen], by simp [isSequence], by simp, by simp⟩
    | false =>
      exact ⟨_,
      _, lexemes_call .., rfl, by simp [startsInParen], by simp [isSequence], by simp, by simp⟩
  | collection _ sequence =>
    cases sequence with
    | true =>
      exact ⟨_, _,
      lexemes_sequence .., rfl, by simp [startsInParen], by simp [isSequence], by simp, by simp⟩
    | false =>
      exact ⟨_,
      _, lexemes_list .., rfl, by simp [startsInParen], by simp [isSequence], by simp, by simp⟩
  | funcLit pos params body =>
    have heq : lexemes false (.funcLit pos params body) = .keyword .func :: (paramLexemes params ++
        .mark .leftBrace :: (lineLexemes (lexemesAll true body) ++
          [.mark .rightBrace])) := by rw [lexemes]
    exact ⟨_, _, heq, rfl, by simp [startsInParen], by simp [isSequence], by simp,
      fun _ => ⟨_, rfl⟩⟩
  | conditional _ _ _ other => cases other <;> exact absurd rfl hn.1
  | forLoop _ _ _ _ step => cases step <;> exact absurd rfl hn.1
  | whileLoop | ret => exact absurd rfl hn.1
  | funcDef | hostDecl => cases hn.1

theorem head_plain (hn : n.Shaped .operand) :
    ∃ l ls, n.lexemes true = l :: ls ∧ l.opensExpression = true ∧
      (l = .mark .leftParen ↔ n.startsInParen true = true) ∧
      (l = .keyword .func → ∃ ms, ls = .mark .leftParen :: ms) := by
  have hsame (h : n.lexemes true = n.lexemes false) (hp : n.startsInParen true =
    n.startsInParen false) : ∃ l ls, n.lexemes true = l :: ls ∧ l.opensExpression = true ∧
        (l = .mark .leftParen ↔ n.startsInParen true = true) ∧
        (l = .keyword .func → ∃ ms, ls = .mark .leftParen :: ms) := by
    obtain ⟨l, ls, heq, hopens, hparen, -, -, hfunc⟩ := head_operand hn
    exact ⟨l, ls, h.trans heq, hopens, hp ▸ hparen, hfunc⟩
  cases n with
  | binary _ op l r =>
    by_cases hop : op = "="
    · obtain ⟨t, ts, heq, hopens, hparen, -, -, hfunc⟩ := head_operand hn.2.1
      refine ⟨t, ts ++ operatorLexeme op :: lexemes false r, ?_, hopens, ?_, fun ht => ?_⟩
      · simp [lexemes, hop, heq]
      · simpa [startsInParen, hop] using hparen
      · obtain ⟨ms, rfl⟩ := hfunc ht
        exact ⟨_, rfl⟩
    · exact hsame (by simp [lexemes, hop]) (by simp [startsInParen, hop])
  | conditional _ _ _ other => cases other <;> exact absurd rfl hn.1
  | forLoop _ _ _ _ step => cases step <;> exact absurd rfl hn.1
  | whileLoop | ret => exact absurd rfl hn.1
  | funcDef | hostDecl => cases hn.1
  | _ => exact hsame (by simp only [lexemes]) rfl

theorem head_statement (hn : n.Shaped level) :
    ∃ l ls, n.lexemes true = l :: ls ∧ l.opensStatement = true ∧
      (l = .mark .leftParen ↔ n.startsInParen true = true) := by
  have hplain (hn : n.Shaped .operand) : ∃ l ls, n.lexemes true = l :: ls ∧
    l.opensStatement = true ∧
      (l = .mark .leftParen ↔ n.startsInParen true = true) := by
    obtain ⟨l, ls, heq, hopens, hparen, -⟩ := head_plain hn
    exact ⟨l, ls, heq, Lexeme.opensStatement_of_opensExpression hopens, hparen⟩
  cases n with
  | conditional _ _ _ other =>
    cases other <;> exact ⟨_, _, by rw [lexemes], rfl, by simp [startsInParen]⟩
  | forLoop _ _ _ _ step =>
    cases step <;> exact ⟨_, _, by rw [lexemes], rfl, by simp [startsInParen]⟩
  | whileLoop | ret | funcDef | hostDecl =>
    exact ⟨_, _, by rw [lexemes], rfl, by simp [startsInParen]⟩
  | call _ builtin => cases builtin <;> exact hplain hn
  | _ => exact hplain hn

theorem head_lexemesAll {ns : List Node} (hns : ShapedAll level ns) :
    (lexemesAll true ns).head?.any leadsParen = ns.head?.any (startsInParen true) := by
  cases ns with
  | nil => rfl
  | cons m ns =>
    obtain ⟨l, ls, hl, -, hiff⟩ := head_statement hns.1
    simp only [lexemesAll, List.head?_cons, Option.any_some, hl]
    rw [Bool.eq_iff_iff, ← hiff]
    cases l with
    | mark m => cases m <;> simp [leadsParen]
    | _ => simp [leadsParen]

end Node

namespace Parse

open Node Calls

/-! ## Runs on spelled tokens -/

def front (ls : List Lexeme) : Lexeme := ls.headD .endOfInput

/-- On all tokens that spell the lexemes, in front of the end of the input, the run gives a result
and leaves tokens that spell lexemes as in `Q`, or it fails. -/
def SettlesOn {α : Type} (g : Bool) (x : Parse α) (ls : List Lexeme) (Q : α → List Lexeme → Prop) :
    Prop :=
  ∀ ⦃e ts⦄, e.lexeme = .endOfInput → ts.map Token.lexeme = ls →
    Settles e g x ts fun a us => Q a (us.map Token.lexeme)

theorem lexeme_tok {e : Token} {ts : List Token} (he : e.lexeme = .endOfInput)
    (hts : ts.map Token.lexeme = ls) : (Stream.of e ts).tok.lexeme = front ls := by
  subst hts
  cases ts with
  | nil => exact he
  | cons => rfl

namespace SettlesOn

variable {α β : Type} {g' : Bool} {x y : Parse α} {f : α → Parse β} {l : Lexeme}
  {P : α → List Lexeme → Prop} {Q : β → List Lexeme → Prop}

theorem bind (hx : SettlesOn g x ls P) (hf : ∀ a ms, P a ms → SettlesOn g' (f a) ms Q) :
    SettlesOn (g && g') (x >>= f) ls Q :=
  fun _ _ he hts => (hx he hts).bind fun a _ hP => hf a _ hP he rfl

theorem sure (hx : SettlesOn true x ls P) (hf : ∀ a ms, P a ms → SettlesOn g (f a) ms Q) :
    SettlesOn g (x >>= f) ls Q :=
  fun _ _ he hts => (hx he hts).sure fun a _ hP => hf a _ hP he rfl

theorem finish (hx : SettlesOn g x ls P) (hf : ∀ a ms, P a ms → SettlesOn true (f a) ms Q) :
    SettlesOn g (x >>= f) ls Q :=
  fun _ _ he hts => (hx he hts).finish fun a _ hP => hf a _ hP he rfl

theorem map {f : α → β} (hx : SettlesOn g x ls P) (hf : ∀ a ms, P a ms → Q (f a) ms) :
    SettlesOn g (x >>= fun a => pure (f a)) ls Q :=
  fun _ _ he hts => (hx he hts).map fun a _ hP => hf a _ hP

theorem mono {P' : α → List Lexeme → Prop} (hx : SettlesOn g x ls P)
    (hp : ∀ a ms, P a ms → P' a ms) :
    SettlesOn g x ls P' :=
  fun _ _ he hts => (hx he hts).mono fun a _ hP => hp a _ hP

theorem cast (hg : g = g') (h : SettlesOn g x ls P) : SettlesOn g' x ls P := hg ▸ h

theorem pure {a : α} (h : P a ls) : SettlesOn true (pure a) ls P := fun _ _ _ hts => .pure (hts ▸ h)

theorem congr (hy : SettlesOn g y ls P) (h : ∀ s : Stream, s.Closed → x s = y s) :
    SettlesOn g x ls P :=
  fun _ ts he hts => .of_eq (h _ (closed_of he ts)) (hy he hts)

theorem current {f : Token → Parse β} (h : ∀ t, t.lexeme = front ls → SettlesOn g (f t) ls Q) :
    SettlesOn g (Parse.current >>= f) ls Q :=
  fun _ _ he hts => .current (h _ (lexeme_tok he hts) he hts)

theorem peek {f : Token → Parse β} (h : ∀ t, t.lexeme = l → SettlesOn g (f t) (l :: ls) Q) :
    SettlesOn g (Parse.current >>= f) (l :: ls) Q := current h

theorem advance {f : Unit → Parse β} (h : SettlesOn g (f ()) ls Q) :
    SettlesOn g (Parse.advance >>= f) (l :: ls) Q := by
  intro e ts he hts
  obtain ⟨t, ts, rfl, -, hts⟩ := List.map_eq_cons_iff.mp hts
  exact .advance (h he hts)

theorem expect {place : Place} {f : Token → Parse β} (hk : l.kind = kind)
    (h : ∀ t, SettlesOn g (f t) ls Q) : SettlesOn g (Parse.expect kind place >>= f)
    (l :: ls) Q := by
  intro e ts he hts
  obtain ⟨t, ts, rfl, rfl, htail⟩ := List.map_eq_cons_iff.mp hts
  exact .expect hk (h t he htail)

theorem expectName {place : Place} {f : String → Parse β} {v : String}
    (h : SettlesOn g (f v) ls Q) :
    SettlesOn g (Parse.expectName place >>= f) (.identifier v :: ls) Q := by
  intro e ts he hts
  obtain ⟨t, ts, rfl, ht, hts⟩ := List.map_eq_cons_iff.mp hts
  exact .expectName ht (h he hts)

theorem expectAssign {f : Unit → Parse β} (h : SettlesOn g (f ()) ls Q) :
    SettlesOn g (Parse.expectAssign >>= f) (operatorLexeme "=" :: ls) Q := by
  intro e ts he hts
  obtain ⟨t, ts, rfl, ht, hts⟩ := List.map_eq_cons_iff.mp hts
  exact .expectAssign (o := ⟨"=", .assign, 2⟩) ht rfl (h he hts)

theorem behind_none {p : Token → Parse α} {f : Option α → Parse β}
    (hk : (front ls).kind ≠ kind) (h : SettlesOn g (f none) ls Q) :
    SettlesOn g (behind? kind p >>= f) ls Q :=
  fun _ _ he hts => .behind_none (by rwa [Token.kind, lexeme_tok he hts]) (h he hts)

theorem behind_some {p : Token → Parse α} {f : Option α → Parse β}
    (hk : l.kind = kind) (hp : ∀ t, SettlesOn g (p t) ls P)
    (hf : ∀ a ms, P a ms → SettlesOn g' (f (some a)) ms Q) :
    SettlesOn (g && g') (behind? kind p >>= f) (l :: ls) Q := by
  intro e ts he hts
  obtain ⟨t, ts, rfl, rfl, htail⟩ := List.map_eq_cons_iff.mp hts
  exact .behind_some hk (hp t he htail) fun a _ hP => hf a _ hP he rfl

end SettlesOn

def Rests (R : List Lexeme) : Prop := ∀ t : Token, t.lexeme = front R → Halts t [t]

def Shuts (closers : List TokenKind) (R : List Lexeme) : Prop :=
  ∀ t : Token, t.lexeme = front R → Closes t closers [t]

variable {l r : Node} {ns : List Node} {R : List Lexeme} {closers : List TokenKind}

theorem rests_mark {m : Mark} (hm : m ≠ .leftParen) : Rests (.mark m :: R) :=
  fun _ ht => halts_of_mark ht hm

theorem rests_keyword {k : Keyword} : Rests (.keyword k :: R) := fun _ ht => halts_of_keyword ht

theorem shuts_done : Shuts [.keyword .done] (.keyword .done :: R) := fun _ ht => closes_done ht

theorem shuts_brace : Shuts [.mark .rightBrace] (.mark .rightBrace :: R) :=
    fun _ ht => closes_brace ht

theorem shuts_branch {k : Keyword} (hk : k = .orElse ∨ k = .done) :
    Shuts [.keyword .orElse, .keyword .done] (.keyword k :: R) := by
  rintro t (ht : t.lexeme = .keyword k)
  rcases hk with rfl | rfl
  · exact closes_branch (.inl ht)
  · exact closes_branch (.inr ht)

theorem Rests.front_ne (h : Rests R) : front R ≠ .mark .leftParen :=
  fun hp => (h ⟨front R, {}⟩ rfl).2 (kind_mark hp)

theorem Shuts.rests (h : Shuts closers R) : Rests R := fun t ht => (h t ht).halts

structure Ends (n : Node) (R : List Lexeme) : Prop where
  operator : ∀ t : Token, t.lexeme = front R → binaryOperator? t = none
  name : n.endsInName = true → front R ≠ .mark .leftParen

theorem Rests.ends (h : Rests R) (n : Node) :
    Ends n R := ⟨fun t ht => (h t ht).1, fun _ => h.front_ne⟩

/-! ## Operands -/

def Back (R : List Lexeme) (n a : Node) (ls : List Lexeme) :
    Prop := ls = R ∧ a.unplaced = n.unplaced

def BackAll (R : List Lexeme) (ns as : List Node) (ls : List Lexeme) : Prop :=
  ls = R ∧ unplacedAll as = unplacedAll ns

theorem BackAll.cons {ls : List Lexeme} {a : Node} {as : List Node} (has : BackAll R ns as ls)
    (ha : a.unplaced = n.unplaced) : BackAll R (n :: ns) (a :: as) ls :=
  ⟨has.1, by rw [unplacedAll, ha, has.2, ← unplacedAll]⟩

def ReadBy (p : Parse Node) (n : Node) : Prop := ∀ ⦃R⦄, n.Shaped .operand → n.Calm →
  (n.endsInName = true → front R ≠ .mark .leftParen) → SettlesOn n.single p
    (n.lexemes false ++ R) (Back R n)

structure Readable (n : Node) : Prop where
  primary : n.isUnary = false → ReadBy ample.primary n
  unary : ReadBy ample.unary n
  statement (nested : Bool) {R : List Lexeme} : n.Shaped (if nested then .body else .top) → n.Calm →
    Rests R → SettlesOn n.single (ample.statement nested) (n.lexemes true ++ R) (Back R n)

theorem binary_ends (least : Nat) (lhs : Node)
    (hR : ∀ t : Token, t.lexeme = front R → binaryOperator? t = none) :
    SettlesOn true (ample.binary least lhs) R fun a ls => a = lhs ∧ ls = R := by
  refine .congr (.current fun t ht => ?_) (ample_binary _ _)
  rw [hR t ht]
  exact .pure ⟨rfl, rfl⟩

theorem expression_of_unary (h : SettlesOn g ample.unary ls (Back R n))
    (hR : ∀ t : Token, t.lexeme = front R → binaryOperator? t = none) :
    SettlesOn g ample.expression ls (Back R n) := by
  refine .congr (h.finish ?_) ample_expression
  rintro lhs _ ⟨rfl, hlhs⟩
  refine (binary_ends 0 lhs hR).mono ?_
  rintro _ _ ⟨rfl, rfl⟩
  exact ⟨rfl, hlhs⟩

theorem Readable.expression (h : Readable n) (hn : n.Shaped .operand) (hc : n.Calm)
    (hR : Ends n R) :
    SettlesOn n.single ample.expression (n.lexemes false ++ R) (Back R n) :=
  expression_of_unary (h.unary hn hc hR.name) hR.operator

theorem joined_reads (hl : Readable l) (hr : Readable r) (hls : l.Shaped .operand)
    (hrs : r.Shaped .operand)
    (hlc : l.Calm) (hrc : r.Calm) {op : Operator} (hop : op.isBinary = true) (pos : Position)
    (hR : Rests R) :
    SettlesOn (l.single && r.single) ample.expression
      (l.lexemes false ++ .operator op :: (r.lexemes false ++ R))
      (Back R (.binary pos op.spelling l r)) := by
  refine .congr ((hl.unary hls hlc fun _ => by intro h; cases h).bind ?_) ample_expression
  rintro lhs _ ⟨rfl, hlhs⟩
  refine .congr (.peek fun t ht => ?_) (ample_binary _ _)
  have hjoins : binaryOperator? t = some op := by simp [binaryOperator?, ht, hop]
  simp only [hjoins, Nat.not_lt_zero, if_false]
  refine .advance ((hr.unary hrs hrc fun _ => hR.front_ne).finish ?_)
  rintro rhs _ ⟨rfl, hrhs⟩
  refine .current fun u hu => ?_
  have hnone : binaryOperator? u = none := (hR u hu).1
  simp only [hnone, Option.any_none, Bool.false_eq_true, if_false]
  refine (binary_ends 0 _ fun t ht => (hR t ht).1).mono ?_
  rintro _ _ ⟨rfl, rfl⟩
  exact ⟨rfl, by simp [unplaced, hlhs, hrhs]⟩

theorem group_reads (h : SettlesOn g ample.expression (ls ++ .mark .rightParen :: R)
    (Back (.mark .rightParen :: R) n)) :
    SettlesOn g ample.primary (.mark .leftParen :: (ls ++ .mark .rightParen :: R)) (Back R n) := by
  refine .congr (.peek fun t ht => ?_) ample_primary
  simp only [ht]
  refine .advance (h.finish ?_)
  rintro a _ ⟨rfl, ha⟩
  exact .expect rfl fun _ => .pure ⟨rfl, ha⟩

/-! ## Lists of operands -/

def ReadableAll (ns : List Node) : Prop := ∀ n ∈ ns, Readable n

theorem readableAll_cons : ReadableAll (n :: ns) ↔ Readable n ∧ ReadableAll ns :=
    List.forall_mem_cons

section

variable (h : ReadableAll ns) (hn : ShapedAll .operand ns) (hc : CalmAll ns)

include h hn hc

theorem arguments_read (hne : ns ≠ []) : SettlesOn (singleAll ns) ample.arguments
      (commaLexemes (lexemesAll false ns) ++ .mark .rightParen :: R) (BackAll R ns) := by
  induction ns with
  | nil => exact absurd rfl hne
  | cons n ns ih =>
    obtain ⟨hcn, hcs⟩ := calmAll_cons.mp hc
    obtain ⟨hfirst, hrest⟩ := readableAll_cons.mp h
    rw [singleAll_cons, lexemesAll, commaLexemes, List.append_assoc]
    cases ns with
    | nil =>
      refine .congr ((hfirst.expression hn.1 hcn ((rests_mark (by simp)).ends n)).bind ?_)
        ample_arguments
      rintro a _ ⟨rfl, ha⟩
      refine .peek fun t ht => ?_
      simp only [ht]
      exact .advance (.pure ⟨rfl, by simp [unplacedAll, ha]⟩)
    | cons m ns =>
      refine .congr ((hfirst.expression hn.1 hcn ((rests_mark (by simp)).ends n)).bind ?_)
        ample_arguments
      rintro a _ ⟨rfl, ha⟩
      refine .peek fun t ht => ?_
      simp only [ht]
      exact .advance ((ih hrest hn.2 hcs (List.cons_ne_nil _ _)).map fun _ _ has => has.cons ha)

theorem doArguments_read : SettlesOn (singleAll ns) ample.doArguments
    (furtherLexemes (lexemesAll false ns) ++ .mark .rightParen :: R) (BackAll R ns) := by
  induction ns with
  | nil =>
    refine .congr (.peek fun t ht => ?_) ample_doArguments
    simp only [ht]
    exact .advance (.pure ⟨rfl, rfl⟩)
  | cons n ns ih =>
    obtain ⟨hcn, hcs⟩ := calmAll_cons.mp hc
    obtain ⟨hfirst, hrest⟩ := readableAll_cons.mp h
    have hrests : Rests (furtherLexemes (lexemesAll false ns) ++ .mark .rightParen :: R) := by
      cases ns <;> exact rests_mark (by simp)
    rw [singleAll_cons, lexemesAll, furtherLexemes, List.cons_append, List.append_assoc]
    refine .congr (.peek fun t ht => ?_) ample_doArguments
    simp only [ht]
    refine .advance ((hfirst.expression hn.1 hcn (hrests.ends n)).bind ?_)
    rintro a _ ⟨rfl, ha⟩
    exact (ih hrest hn.2 hcs).map fun _ _ has => has.cons ha

end

theorem Readable.element (h : Readable n) (hn : n.Shaped .operand) (hc : n.Calm)
    (hR : front R ≠ .mark .leftParen) :
    SettlesOn n.single ample.primary ((if n.isUnary then .mark .leftParen ::
      (n.lexemes false ++ [.mark .rightParen]) else n.lexemes false) ++ R) (Back R n) := by
  split
  · rw [List.cons_append, List.append_assoc]
    exact group_reads (h.expression hn hc ((rests_mark (by simp)).ends n))
  · rename_i hu
    exact h.primary (by simpa using hu) hn hc fun _ => hR

section

variable (h : ReadableAll ns) (hn : ShapedAll .operand ns) (hc : CalmAll ns)

include h hn hc

theorem elements_read (hne : ns ≠ []) {closer : Mark}
    (hcloser : closer ≠ .leftParen ∧ closer ≠ .comma) :
    SettlesOn (singleAll ns) (ample.elements closer)
      (commaLexemes (elementLexemes ns) ++ .mark closer :: R) (BackAll R ns) := by
  induction ns with
  | nil => exact absurd rfl hne
  | cons n ns ih =>
    obtain ⟨hcn, hcs⟩ := calmAll_cons.mp hc
    obtain ⟨hfirst, hrest⟩ := readableAll_cons.mp h
    rw [singleAll_cons, elementLexemes, commaLexemes, List.append_assoc]
    cases ns with
    | nil =>
      refine .congr ((hfirst.element hn.1 hcn (rests_mark hcloser.1).front_ne).bind ?_)
        (ample_elements _)
      rintro a _ ⟨rfl, ha⟩
      refine .peek fun t ht => ?_
      rw [if_neg (by rw [kind_mark ht]; simpa using hcloser.2), if_pos (kind_mark ht)]
      exact .advance (.pure ⟨rfl, by simp [unplacedAll, ha]⟩)
    | cons m ns =>
      refine .congr ((hfirst.element hn.1 hcn (by intro h; cases h)).bind ?_) (ample_elements _)
      rintro a _ ⟨rfl, ha⟩
      refine .peek fun t ht => ?_
      rw [if_pos (kind_mark ht)]
      exact .advance ((ih hrest hn.2 hcs (List.cons_ne_nil _ _)).map fun _ _ has => has.cons ha)

theorem collection_reads (hne : ns ≠ []) {closer : Mark} {x : Token} (hx : x.kind ≠ .endOfInput)
    (hcloser : closer = .rightBracket ∨ closer = .pipe) (pos : Position) :
    SettlesOn (single (.collection pos (closer = .pipe) ns)) (ample.collection x closer)
      (x.lexeme :: (commaLexemes (elementLexemes ns) ++ .mark closer :: R))
      (Back R (.collection pos (closer = .pipe) ns)) := by
  have hother : closer ≠ .leftParen ∧ closer ≠ .comma := by rcases hcloser with rfl | rfl <;> simp
  have helements := elements_read h hn hc hne hother (R := R)
  have hunfold (hy : SettlesOn (single (.collection pos (closer = .pipe) ns))
      (ample.unfold.collection x closer) (x.lexeme :: (commaLexemes (elementLexemes ns) ++
        .mark closer :: R)) (Back R (.collection pos (closer = .pipe) ns))) :
      SettlesOn (single (.collection pos (closer = .pipe) ns)) (ample.collection x closer)
        (x.lexeme :: (commaLexemes (elementLexemes ns) ++ .mark closer :: R))
        (Back R (.collection pos (closer = .pipe) ns)) := fun e ts he hts => by
    refine .of_agree ((alike_unfold _).collection _ _ _ (closed_of he _) ?_ (Nat.le_refl _))
      (hy he hts)
    rwa [Token.kind, lexeme_tok he hts]
  refine hunfold (.advance (.current fun u hu => ?_))
  cases ns with
  | nil => exact absurd rfl hne
  | cons n ns =>
    obtain ⟨l, ls, hhead, hopens, -, hpipe, -⟩ := head_operand hn.1
    -- The first token is a closer only if the element is a sequence between pipes.
    have hfirst : u.kind = .mark closer ↔ closer = .pipe ∧ n.isSequence = true := by
      rw [elementLexemes, commaLexemes, List.append_assoc] at hu
      cases hunary : n.isUnary with
      | true =>
        have hsequence : n.isSequence = false := by cases n <;> first | rfl | cases hunary
        rw [hunary] at hu
        rw [kind_mark hu]
        rcases hcloser with rfl | rfl <;> simp [hsequence]
      | false =>
        rw [hunary, if_neg Bool.false_ne_true, hhead] at hu
        obtain rfl : u.lexeme = l := hu
        rw [← hpipe]
        constructor
        · intro hk
          have hl := lexeme_of_mark hk
          rcases hcloser with rfl | rfl
          · rw [hl] at hopens
            cases hopens
          · exact ⟨rfl, hl⟩
        · rintro ⟨rfl, hl⟩
          exact kind_mark hl
    have hsingle : single (.collection pos (closer = .pipe) (n :: ns)) =
        (!(decide (closer = .pipe) && n.isSequence) && singleAll (n :: ns)) := by
      simp [single, singleAll, preorder, doubled]
    rw [hsingle]
    by_cases hk : closer = .pipe ∧ n.isSequence = true
    · rw [if_pos (hfirst.mpr hk)]
      simp only [hk.1, hk.2, decide_true, Bool.and_self, Bool.not_true, Bool.false_and]
      exact fun _ _ _ _ => ⟨_, rfl⟩
    · rw [if_neg fun heq => hk (hfirst.mp heq)]
      have hgood : (!(decide (closer = .pipe) && n.isSequence)) = true := by
        simpa [Decidable.imp_iff_not_or] using hk
      rw [hgood, Bool.true_and]
      refine helements.map ?_
      rintro as _ ⟨rfl, has⟩
      exact ⟨rfl, by rw [unplaced, has, ← unplaced]⟩

end

/-! ## Names and parameters -/

theorem names_read {xs : List String} (hne : xs ≠ []) : SettlesOn true ample.names
    (commaLexemes (xs.map fun x => [.identifier x]) ++ .mark .rightParen :: R)
    fun ys ls => ys = xs ∧ ls = .mark .rightParen :: R := by
  induction xs with
  | nil => exact absurd rfl hne
  | cons x xs ih =>
    cases xs with
    | nil =>
      refine .congr (.expectName (.peek fun t ht => ?_)) ample_names
      rw [if_neg (by rw [kind_mark ht]; simp)]
      exact .pure ⟨rfl, rfl⟩
    | cons y xs =>
      refine .congr (.expectName (.peek fun t ht => ?_)) ample_names
      rw [if_pos (kind_mark ht)]
      refine .advance ((ih (List.cons_ne_nil _ _)).map ?_)
      rintro ys _ ⟨rfl, rfl⟩
      exact ⟨rfl, rfl⟩

theorem params_read (place : Place) : SettlesOn true (ample.params place) (paramLexemes ps ++ R)
    fun ys ls => ys = ps ∧ ls = R := by
  rw [paramLexemes, List.cons_append, List.append_assoc]
  refine .expect rfl fun _ => .current fun t ht => ?_
  dsimp only
  cases ps with
  | nil =>
    rw [if_pos (kind_mark ht)]
    exact .sure (P := fun ys ls => ys = [] ∧ ls = .mark .rightParen :: R) (.pure ⟨rfl, rfl⟩)
      fun _ _ h => h.1 ▸ h.2 ▸ .expect rfl fun _ => .pure ⟨rfl, rfl⟩
  | cons p ps =>
    have ht : t.lexeme = .identifier p := ht
    rw [if_neg (by rw [Token.kind, ht]; intro h; cases h)]
    refine (names_read (List.cons_ne_nil _ _)).sure ?_
    rintro _ _ ⟨rfl, rfl⟩
    exact .expect rfl fun _ => .pure ⟨rfl, rfl⟩

/-! ## Statements -/

def lineTokens (ns : List Node) : List Lexeme := lineLexemes (lexemesAll true ns)

theorem lineTokens_cons (n : Node) (ns : List Node) (level : Level) (hns : ShapedAll level ns) :
    lineTokens (n :: ns) = n.lexemes true ++ ((if ns.head?.any (startsInParen true) then
      [.mark .semicolon] else []) ++ lineTokens ns) := by
  rw [lineTokens, lexemesAll, lineLexemes, head_lexemesAll hns]
  rfl

theorem lines_rest (hns : ShapedAll level ns) (hR : Rests R) :
    (∀ t : Token, t.lexeme = front (lineTokens ns ++ R) → binaryOperator? t = none) ∧
      ((front R).kind ≠ .mark .comma → (front (lineTokens ns ++ R)).kind ≠ .mark .comma) ∧
      (ns.head?.any (startsInParen true) = false → front (lineTokens ns ++ R) ≠
      .mark .leftParen) := by
  cases ns with
  | nil => exact ⟨fun t ht => (hR t ht).1, id, fun _ => hR.front_ne⟩
  | cons n ns =>
    obtain ⟨l, ls, hl, hopens, hiff⟩ := head_statement hns.1
    have hfront : front (lineTokens (n :: ns) ++ R) = l := by
      rw [lineTokens_cons n ns level hns.2, hl]
      rfl
    rw [hfront]
    refine ⟨fun t ht => ?_, fun _ hk => ?_, fun hp hk => ?_⟩
    · rw [Option.eq_none_iff_forall_ne_some]
      intro op (hop : t.Joins op)
      obtain ⟨hlex, hcat⟩ := hop.lexeme
      rw [← ht, hlex] at hopens
      exact hcat (of_decide_eq_true hopens)
    · have hl : l = .mark .comma := lexeme_of_mark (t := ⟨l, {}⟩) hk
      rw [hl] at hopens
      cases hopens
    · have := hiff.mp hk
      simp [this] at hp

theorem separator_rests (hns : ShapedAll level ns) (hR : Rests R) :
    Rests ((if ns.head?.any (startsInParen true) then [.mark .semicolon] else []) ++
      (lineTokens ns ++ R)) := by
  split
  · exact rests_mark (by simp)
  · rename_i hp
    obtain ⟨hop, -, hparen⟩ := lines_rest hns hR
    exact fun t ht => ⟨hop t ht, fun hk => hparen (by simpa using hp) (ht ▸ lexeme_of_mark hk)⟩

theorem block_reads (h : ReadableAll ns) (hns : ShapedAll .body ns) (hc : CalmAll ns)
    (owner : Token) (hR : Shuts closers R) :
    SettlesOn (singleAll ns) (ample.block owner closers) (lineTokens ns ++ R) (BackAll R ns) := by
  induction ns with
  | nil =>
    refine .congr (.current fun t ht => ?_) (ample_block _ _)
    have hmem : t.kind ∈ closers := (hR t ht).mem
    rw [if_pos (List.contains_iff_mem.mpr hmem)]
    exact .pure ⟨rfl, rfl⟩
  | cons n ns ih =>
    obtain ⟨hcn, hcs⟩ := calmAll_cons.mp hc
    obtain ⟨hfirst, hall⟩ := readableAll_cons.mp h
    have ih := ih hall hns.2 hcs
    have hrests := separator_rests hns.2 hR.rests
    have hnot {t : Token} := (hR ⟨front R, {}⟩ rfl).not_mem (t := t)
    have hrest : SettlesOn (singleAll ns) (ample.block owner closers)
        ((if ns.head?.any (startsInParen true) then [.mark .semicolon] else []) ++
          (lineTokens ns ++ R)) (BackAll R ns) := by
      split
      · refine .congr (.peek fun t ht => ?_) (ample_block _ _)
        simp only [List.contains_iff_mem, if_neg (hnot (.inl ht)), ht]
        exact .advance ih
      · exact ih
    obtain ⟨l, ls, hl, hopens, -⟩ := head_statement hns.1
    rw [singleAll_cons, lineTokens_cons n ns .body hns.2, List.append_assoc, List.append_assoc]
    refine .congr (.current fun t ht => ?_) (ample_block _ _)
    obtain rfl : t.lexeme = l := by
      rw [hl] at ht
      exact ht
    simp only [List.contains_iff_mem, if_neg (hnot (.inr hopens))]
    split
    case h_4 =>
      refine (hfirst.statement true hns.1 hcn hrests).bind ?_
      rintro a _ ⟨rfl, ha⟩
      exact hrest.map fun _ _ has => has.cons ha
    all_goals
      rename_i hlex
      rw [hlex] at hopens
      cases hopens

theorem function_reads (h : ReadableAll ns) (hns : ShapedAll .body ns) (hc : CalmAll ns)
    (place : Place) :
    SettlesOn (singleAll ns) (ample.function place) (paramLexemes ps ++
      .mark .leftBrace :: (lineTokens ns ++ .mark .rightBrace :: R)) fun r ls =>
      r.1 = ps ∧ BackAll R ns r.2 ls := by
  refine .congr ((params_read place).sure ?_) (ample_function _)
  rintro qs _ ⟨rfl, rfl⟩
  refine .expect rfl fun x => (block_reads h hns hc x shuts_brace).finish ?_
  rintro body _ ⟨rfl, hbody⟩
  exact .expect rfl fun _ => .pure ⟨rfl, rfl, hbody⟩

/-! ## Trees -/

theorem statement_of_expression {Q : Node → List Lexeme → Prop} (nested : Bool) {l : Lexeme}
    (hopens : l.opensExpression = true)
    (hfunc : l = .keyword .func → ∃ ms, ls = .mark .leftParen :: ms)
    (h : SettlesOn g ample.expression (l :: ls) Q) :
    SettlesOn g (ample.statement nested) (l :: ls) Q := by
  refine .congr (fun e ts he hts => ?_) (ample_statement _)
  obtain ⟨t, ts, rfl, rfl, hts'⟩ := List.map_eq_cons_iff.mp hts
  refine .peek ?_
  by_cases hf : t.lexeme = .keyword .func
  · -- The literal is followed by a parenthesis, which a definition is not.
    obtain ⟨ms, rfl⟩ := hfunc hf
    obtain ⟨x, us, rfl, hx, -⟩ := List.map_eq_cons_iff.mp hts'
    simp only [hf]
    refine .of_eq ?_ (h he hts)
    have hclosed := closed_of he (t :: x :: us)
    have hcurrent (s : Stream) : current s = .ok (s.tok, s) := rfl
    have hprimary := ample_primary _ hclosed
    have hunary := ample_unary _ hclosed
    have hexpression := ample_expression _ hclosed
    simp only [Calls.unfold, bind_run, hcurrent, tok_of, hf,
      advance_of] at hprimary hunary hexpression
    rw [hexpression, hunary, hprimary, bind_run, advance_of]
    simp only [Calls.definition, bind_run, hcurrent, tok_of, hx]
    cases ample.function .funcParams (Stream.of e (x :: us)) <;> rfl
  · split
    case h_8 => exact h he hts
    case h_6 hl => exact absurd hl hf
    all_goals
      rename_i hl
      rw [hl] at hopens
      cases hopens

namespace Readable

theorem of_unary (hoperand : ∀ level, n.Shaped level → n.Shaped .operand)
    (hprimary : n.isUnary = false → ReadBy ample.primary n) (hunary : ReadBy ample.unary n)
    (hassign : ∀ ⦃R⦄, n.lexemes true ≠ n.lexemes false → n.Shaped .operand → n.Calm → Rests R →
      SettlesOn n.single ample.expression (n.lexemes true ++ R) (Back R n)) : Readable n where
  primary := hprimary
  unary := hunary
  statement nested R hn hc hR := by
    have hn := hoperand _ hn
    have hread : SettlesOn n.single ample.expression (n.lexemes true ++ R) (Back R n) := by
      by_cases hsame : n.lexemes true = n.lexemes false
      · rw [hsame]
        exact expression_of_unary (hunary hn hc fun _ => hR.front_ne) fun t ht => (hR t ht).1
      · exact hassign hsame hn hc hR
    obtain ⟨l, ls, hl, hopens, -, hfunc⟩ := head_plain hn
    rw [hl] at hread ⊢
    refine statement_of_expression nested hopens (fun hf => ?_) hread
    obtain ⟨ms, rfl⟩ := hfunc hf
    exact ⟨_, rfl⟩

theorem of_primary (hu : n.isUnary = false) (hoperand : ∀ level, n.Shaped level → n.Shaped .operand)
    (hprimary : ReadBy ample.primary n)
    (hassign : ∀ ⦃R⦄, n.lexemes true ≠ n.lexemes false → n.Shaped .operand → n.Calm → Rests R →
      SettlesOn n.single ample.expression (n.lexemes true ++ R) (Back R n)) : Readable n := by
  refine of_unary hoperand (fun _ => hprimary) (fun R hn hc hR => ?_) hassign
  obtain ⟨l, ls, hl, -, -, -, hunary, -⟩ := head_operand hn
  refine .congr (.current fun t ht => ?_) ample_unary
  split
  · rename_i op hop
    rw [hl] at ht
    rw [hunary op (ht.symm.trans hop)] at hu
    cases hu
  · exact hprimary hn hc hR

theorem of_operand (hu : n.isUnary = false) (hoperand : ∀ level, n.Shaped level → n.Shaped .operand)
    (hsame : n.lexemes true = n.lexemes false) (hprimary : ReadBy ample.unfold.primary n) :
    Readable n :=
  of_primary hu hoperand (fun _ hn hc hR => .congr (hprimary hn hc hR) ample_primary)
    fun _ h => absurd hsame h

variable {pos : Position} {name : String}

attribute [local simp] single singleAll preorder doubled

theorem number (x : Float) : Readable (.number pos x) := by
  refine of_operand rfl (fun _ h => h) (by simp only [lexemes]) fun R _ _ _ => .peek fun t ht => ?_
  simp only [ht]
  exact .advance (.pure ⟨rfl, rfl⟩)

theorem ident : Readable (.ident pos name) := by
  refine of_operand rfl (fun _ h => h) (by simp only [lexemes]) fun R _ _ hR => .peek fun t ht => ?_
  simp only [ht]
  refine .advance (.current fun u hu => ?_)
  rw [if_neg fun hk => hR rfl (hu ▸ lexeme_of_mark hk)]
  exact .pure ⟨rfl, rfl⟩

theorem negation {op : String} (h : Readable n) : Readable (.unary pos op n) := by
  refine of_unary (fun _ h => h) (fun h => by cases h) (fun R hn hc hR => ?_) fun _ h => absurd
    (by simp only [lexemes]) h
  obtain ⟨rfl, hn⟩ := hn
  have hc : n.Calm := by simpa [Calm, preorder, spills] using hc
  refine .congr (.peek fun t ht => ?_) ample_unary
  have ht : t.lexeme = .operator ⟨"not", .unary, 0⟩ := ht
  simp only [ht, if_true]
  refine .advance (.cast (g := n.single) (by simp) ((h.unary hn hc hR).map ?_))
  rintro a _ ⟨rfl, ha⟩
  exact ⟨rfl, by simp [unplaced, ha]⟩

theorem binary {op : String} (hl : Readable l) (hr : Readable r) :
    Readable (.binary pos op l r) := by
  have hcalm (hc : Calm (.binary pos op l r)) : l.Calm ∧ r.Calm := by
    simpa [Calm, preorder, spills, or_imp, forall_and] using hc
  refine of_primary rfl (fun _ h => h) (fun R hn hc _ => ?_) fun R hne hn hc hR => ?_
  · obtain ⟨⟨o, ho, hbinary, rfl⟩, hln, hrn⟩ := hn
    obtain ⟨hlc, hrc⟩ := hcalm hc
    rw [lexemes_group _ _ _ _ (.inl rfl), operatorLexeme_spelling ho, List.cons_append,
      List.append_assoc]
    refine .cast (g := l.single && r.single) (by simp) (group_reads ?_)
    rw [List.append_assoc, List.cons_append]
    exact joined_reads hl hr hln hrn hlc hrc hbinary pos (rests_mark (by simp))
  · obtain rfl : op = "=" := by
      refine Decidable.byContradiction fun hop => hne ?_
      rw [lexemes_group _ _ _ _ (.inr hop), lexemes_group _ _ _ _ (.inl rfl)]
    obtain ⟨⟨o, ho, hbinary, heq⟩, hln, hrn⟩ := hn
    obtain ⟨hlc, hrc⟩ := hcalm hc
    rw [lexemes_assign, ← heq, operatorLexeme_spelling ho, List.append_assoc, List.cons_append]
    exact .cast (by simp) (joined_reads hl hr hln hrn hlc hrc hbinary pos hR)

theorem call (h : ReadableAll ns) : Readable (.call pos false name ns) := by
  refine of_operand rfl (fun _ h => h) (by simp only [lexemes]) fun R hn hc _ => ?_
  have hc : CalmAll ns := (List.forall_mem_cons.mp hc).2
  rw [lexemes_call]
  simp only [List.cons_append, List.append_assoc, List.nil_append]
  refine .cast (g := singleAll ns) (by simp) (.peek fun t ht => ?_)
  simp only [ht]
  refine .advance (.peek fun x hx => ?_)
  rw [if_pos (kind_mark hx)]
  refine .advance (.current fun z hz => ?_)
  cases ns with
  | nil =>
    rw [if_pos (kind_mark hz)]
    exact .advance (.pure ⟨rfl, rfl⟩)
  | cons m ns =>
    obtain ⟨l, ls, hl, hopens, -⟩ := head_operand hn.2.1
    have hz : z.lexeme = l := by
      rw [lexemesAll, commaLexemes, hl] at hz
      exact hz
    have hne : z.kind ≠ .mark .rightParen := fun hk => by
      rw [← hz, lexeme_of_mark hk] at hopens
      cases hopens
    rw [if_neg hne]
    refine (arguments_read h hn.2 hc (List.cons_ne_nil _ _)).map ?_
    rintro as _ ⟨rfl, has⟩
    exact ⟨rfl, by simp only [unplaced, has]⟩

theorem builtin (h : ReadableAll ns) : Readable (.call pos true name ns) := by
  refine of_operand rfl (fun _ h => h) (by simp only [lexemes]) fun R hn hc _ => ?_
  have hc : CalmAll ns := (List.forall_mem_cons.mp hc).2
  rw [lexemes_builtin]
  simp only [List.cons_append, List.append_assoc, List.nil_append]
  refine .cast (g := singleAll ns) (by simp) (.peek fun t ht => ?_)
  simp only [ht]
  refine .advance (.expect rfl fun _ => .peek fun b hb => ?_)
  simp only [hb]
  refine .advance ((doArguments_read h hn.2 hc).map ?_)
  rintro as _ ⟨rfl, has⟩
  exact ⟨rfl, by simp only [unplaced, has]⟩

theorem collection (sequence : Bool) (h : ReadableAll ns) :
    Readable (.collection pos sequence ns) := by
  refine of_operand rfl (fun _ h => h) (by simp only [lexemes]) fun R hn hc _ => ?_
  have hcs : CalmAll ns := (List.forall_mem_cons.mp hc).2
  cases sequence with
  | true =>
    rw [lexemes_sequence, List.cons_append, List.append_assoc]
    refine .peek fun t ht => ?_
    simp only [ht]
    exact ht ▸ collection_reads h hn.2 hcs hn.1 (by rw [kind_mark ht]; simp) (.inr rfl) pos
  | false =>
    rw [lexemes_list, List.cons_append, List.append_assoc]
    refine .peek fun t ht => ?_
    simp only [ht]
    exact ht ▸ collection_reads h hn.2 hcs hn.1 (by rw [kind_mark ht]; simp) (.inl rfl) pos

theorem funcLit (h : ReadableAll ns) : Readable (.funcLit pos ps ns) := by
  refine of_operand rfl (fun _ h => h) (by simp only [lexemes]) fun R hn hc _ => ?_
  have hc : CalmAll ns := (List.forall_mem_cons.mp hc).2
  rw [lexemes]
  simp only [List.cons_append, List.append_assoc, List.nil_append]
  refine .cast (g := singleAll ns) (by simp) (.peek fun t ht => ?_)
  simp only [ht]
  refine .advance ((function_reads h hn.2 hc .funcParams).map ?_)
  rintro r _ ⟨rfl, rfl, hbody⟩
  exact ⟨rfl, by simp only [unplaced, hbody]⟩

theorem of_statement (hn : ¬ n.Shaped .operand)
    (hstatement : ∀ (nested : Bool) ⦃R⦄, n.Shaped (if nested then .body else .top) →
    n.Calm → Rests R →
      SettlesOn n.single (ample.unfold.statement nested) (n.lexemes true ++ R) (Back R n)) :
    Readable n where
  primary _ _ h := absurd h hn
  unary _ h := absurd h hn
  statement nested _ hn hc hR := .congr (hstatement nested hn hc hR) (ample_statement _)

theorem header (h : Readable n) (hns : ReadableAll ns) (hn : n.Shaped .operand)
    (hshaped : ShapedAll .body ns) (hc : n.Calm) (hcs : CalmAll ns)
    (hspill : (n.endsInName && ns.head?.any (startsInParen true)) = false) {owner : Token}
    {β : Type} {f : Node → List Node → Parse β} {Q : β → List Lexeme → Prop}
    (hR : Shuts closers R)
    (hf : ∀ a as, a.unplaced = n.unplaced → unplacedAll as = unplacedAll ns →
      SettlesOn g (f a as) R Q) :
    SettlesOn (n.single && (singleAll ns && g))
      (ample.expression >>= fun a => ample.block owner closers >>= f a)
      (n.lexemes false ++ (lineTokens ns ++ R)) Q := by
  obtain ⟨hop, -, hparen⟩ := lines_rest hshaped hR.rests
  refine (h.expression hn hc ⟨hop, fun hname => hparen (by simpa [hname] using hspill)⟩).bind ?_
  rintro a _ ⟨rfl, ha⟩
  refine (block_reads hns hshaped hcs owner hR).bind ?_
  rintro as _ ⟨rfl, has⟩
  exact hf a as ha has

theorem conditional (h : Readable n) (hns : ReadableAll ns) :
    Readable (.conditional pos n ns none) := by
  refine of_statement (fun h => h.1 rfl) fun nested R hn hc hR => ?_
  simp only [Calm, preorder, List.forall_mem_cons, List.forall_mem_append] at hc
  obtain ⟨hspill, hc, hcs⟩ := hc
  rw [lexemes]
  simp only [List.cons_append, List.append_assoc, List.nil_append]
  refine .peek fun t ht => ?_
  simp only [ht]
  refine .advance (.cast (by simp) (h.header hns hn.2.1 hn.2.2 hc hcs hspill
    (shuts_branch (.inr rfl)) (g := true) fun a as ha has => ?_))
  refine .behind_none (fun h => by cases h) (.expect rfl fun _ => .pure ⟨rfl, ?_⟩)
  simp only [unplaced, ha, has]

theorem alternative {others : List Node} (h : Readable n) (hns : ReadableAll ns)
    (hothers : ReadableAll others) : Readable (.conditional pos n ns (some others)) := by
  refine of_statement (fun h => h.1 rfl) fun nested R hn hc hR => ?_
  simp only [Calm, preorder, List.forall_mem_cons, List.forall_mem_append] at hc
  obtain ⟨hspill, ⟨hc, hcs⟩, hco⟩ := hc
  rw [lexemes]
  simp only [List.cons_append, List.append_assoc, List.nil_append]
  refine .peek fun t ht => ?_
  simp only [ht]
  refine .advance (.cast (by simp) (h.header hns hn.2.1 hn.2.2.1 hc hcs hspill
    (shuts_branch (.inl rfl)) (g := singleAll others && true) fun a as ha has => ?_))
  refine .behind_some rfl (fun t => block_reads hothers hn.2.2.2 hco t shuts_done) ?_
  rintro bs _ ⟨rfl, hbs⟩
  exact .expect rfl fun _ => .pure ⟨rfl, by simp only [unplaced, ha, has, hbs]⟩

theorem whileLoop (h : Readable n) (hns : ReadableAll ns) : Readable (.whileLoop pos n ns) := by
  refine of_statement (fun h => h.1 rfl) fun nested R hn hc hR => ?_
  simp only [Calm, preorder, List.forall_mem_cons, List.forall_mem_append] at hc
  obtain ⟨hspill, hc, hcs⟩ := hc
  rw [lexemes]
  simp only [List.cons_append, List.append_assoc, List.nil_append]
  refine .peek fun t ht => ?_
  simp only [ht]
  refine .advance (.cast (by simp) (h.header hns hn.2.1 hn.2.2 hc hcs hspill shuts_done
    (g := true) fun a as ha has => ?_))
  exact .expect rfl fun _ => .pure ⟨rfl, by simp only [unplaced, ha, has]⟩

theorem rangeStart (h : Readable start) (hn : start.Shaped .operand) (hc : start.Calm)
    {β : Type} {f : String → Node → Parse β} {Q : β → List Lexeme → Prop}
    (hf : ∀ b, b.unplaced = start.unplaced → SettlesOn g (f name b) ls Q) :
    SettlesOn (start.single && g) (expectName .loopVariable >>= fun var => expectAssign >>= fun _ =>
      ample.expression >>= fun b => expect (.mark .comma) .loopStart >>= fun _ => f var b)
      (.identifier name :: operatorLexeme "=" :: (start.lexemes false ++ .mark .comma :: ls))
        Q := by
  refine .expectName
    (.expectAssign ((h.expression hn hc ((rests_mark (by simp)).ends start)).bind ?_))
  rintro b _ ⟨rfl, hb⟩
  exact .expect rfl fun _ => hf b hb

theorem forLoop {stop : Node} (hstart : Readable start) (hstop : Readable stop)
    (hns : ReadableAll ns) :
    Readable (.forLoop pos name start stop none ns) := by
  refine of_statement (fun h => h.1 rfl) fun nested R hn hc hR => ?_
  obtain ⟨-, -, hsn, hen, hbn⟩ := hn
  simp only [Calm, preorder, List.forall_mem_cons, List.forall_mem_append] at hc
  obtain ⟨hspill, ⟨hsc, hec⟩, hcs⟩ := hc
  rw [lexemes]
  simp only [List.cons_append, List.append_assoc, List.nil_append]
  refine .peek fun t ht => ?_
  simp only [ht]
  obtain ⟨hop, hcomma, hparen⟩ := lines_rest hbn (rests_keyword (k := .done) (R := R))
  refine .advance (.cast (by simp) (rangeStart hstart hsn hsc
    (g := stop.single && (singleAll ns && true)) fun b hb => ?_))
  refine (hstop.expression hen hec ⟨hop, fun hname => hparen
    (by simpa [spills, hname] using hspill)⟩).bind ?_
  rintro c _ ⟨rfl, hc⟩
  refine .behind_none (hcomma (fun h => by cases h))
    ((block_reads hns hbn hcs t shuts_done).bind ?_)
  rintro as _ ⟨rfl, has⟩
  exact .expect rfl fun _ => .pure ⟨rfl, by simp only [unplaced, hb, hc, has]⟩

theorem forStep {stop step : Node} (hstart : Readable start) (hstop : Readable stop)
    (hstep : Readable step)
    (hns : ReadableAll ns) : Readable (.forLoop pos name start stop (some step) ns) := by
  refine of_statement (fun h => h.1 rfl) fun nested R hn hc hR => ?_
  obtain ⟨-, -, hsn, hen, htn, hbn⟩ := hn
  simp only [Calm, preorder, List.forall_mem_cons, List.forall_mem_append] at hc
  obtain ⟨hspill, ⟨⟨hsc, hec⟩, htc⟩, hcs⟩ := hc
  rw [lexemes]
  simp only [List.cons_append, List.append_assoc, List.nil_append]
  refine .peek fun t ht => ?_
  simp only [ht]
  obtain ⟨hop, -, hparen⟩ := lines_rest hbn (rests_keyword (k := .done) (R := R))
  refine .advance (.cast (by simp) (rangeStart hstart hsn hsc
    (g := stop.single && (step.single && (singleAll ns && true))) fun b hb => ?_))
  refine (hstop.expression hen hec ((rests_mark (by simp)).ends stop)).bind ?_
  rintro c _ ⟨rfl, hc⟩
  refine .behind_some rfl (fun _ => hstep.expression htn htc ⟨hop, fun hname => hparen
    (by simpa [spills, hname] using hspill)⟩) ?_
  rintro d _ ⟨rfl, hd⟩
  refine (block_reads hns hbn hcs t shuts_done).bind ?_
  rintro as _ ⟨rfl, has⟩
  exact .expect rfl fun _ => .pure ⟨rfl, by simp only [unplaced, hb, hc, hd, has]⟩

theorem ret (h : Readable n) : Readable (.ret pos n) := by
  refine of_statement (fun h => h.1 rfl) fun nested R hn hc hR => ?_
  have hc : n.Calm := by simpa [Calm, preorder, spills] using hc
  rw [lexemes]
  refine .peek fun t ht => ?_
  simp only [ht]
  refine .advance (.cast (g := n.single) (by simp) ((h.expression hn.2 hc (hR.ends n)).map ?_))
  rintro a _ ⟨rfl, ha⟩
  exact ⟨rfl, by simp only [unplaced, ha]⟩

theorem funcDef (hns : ReadableAll ns) : Readable (.funcDef pos name ps ns) := by
  refine of_statement (fun h => nomatch h.1) fun nested R hn hc hR => ?_
  have hc : CalmAll ns := (List.forall_mem_cons.mp hc).2
  rw [lexemes]
  simp only [List.cons_append, List.append_assoc, List.nil_append]
  refine .peek fun t ht => ?_
  simp only [ht]
  refine .advance (.peek fun v hv => ?_)
  cases nested with
  | true => cases hn.1
  | false =>
    simp only [hv]
    refine .advance (.cast (g := singleAll ns) (by simp)
      ((function_reads hns hn.2.2.2 hc .defParams).map ?_))
    rintro r _ ⟨rfl, rfl, hbody⟩
    exact ⟨rfl, by simp only [unplaced, hbody]⟩

theorem hostDecl : Readable (.hostDecl pos name ps) := by
  refine of_statement (fun h => nomatch h.1) fun nested R hn hc hR => ?_
  rw [lexemes]
  refine .peek fun t ht => ?_
  simp only [ht]
  cases nested with
  | true => cases hn.1
  | false =>
    refine .advance (.expectName (.cast (g := true) (by simp) ((params_read .hostParams).map ?_)))
    rintro qs _ ⟨rfl, rfl⟩
    exact ⟨rfl, rfl⟩

end Readable

mutual

theorem readable (n : Node) : Readable n := by
  match n with
  | .number _ x => exact .number x
  | .ident _ _ => exact .ident
  | .unary _ _ x => exact .negation (readable x)
  | .binary _ _ l r => exact .binary (readable l) (readable r)
  | .call _ false _ ns => exact .call (readableAll ns)
  | .call _ true _ ns => exact .builtin (readableAll ns)
  | .collection _ sequence ns => exact .collection sequence (readableAll ns)
  | .conditional _ c body none => exact .conditional (readable c) (readableAll body)
  | .conditional _ c body (some others) =>
    exact .alternative (readable c) (readableAll body) (readableAll others)
  | .whileLoop _ c body => exact .whileLoop (readable c) (readableAll body)
  | .forLoop _ _ start stop none body =>
    exact .forLoop (readable start) (readable stop) (readableAll body)
  | .forLoop _ _ start stop (some step) body =>
    exact .forStep (readable start) (readable stop) (readable step) (readableAll body)
  | .funcLit _ _ body => exact .funcLit (readableAll body)
  | .funcDef _ _ _ body => exact .funcDef (readableAll body)
  | .hostDecl _ _ _ => exact .hostDecl
  | .ret _ x => exact .ret (readable x)

theorem readableAll (ns : List Node) : ReadableAll ns := by
  match ns with
  | [] =>
    intro _ h
    cases h
  | n :: ns => exact readableAll_cons.mpr ⟨readable n, readableAll ns⟩

end

theorem rests_nil : Rests [] := fun t ht => by
  refine ⟨?_, ?_⟩
  · simp [Stream.of, binaryOperator?, show t.lexeme = .endOfInput from ht]
  · simp [Stream.of, Token.kind, show t.lexeme = .endOfInput from ht, Lexeme.kind]

theorem program_reads (hns : ShapedAll .top ns) (hc : CalmAll ns) :
    SettlesOn (singleAll ns) ampleProgram (lineTokens ns) (BackAll [] ns) := by
  induction ns with
  | nil =>
    refine .congr (.current fun t ht => ?_) fun _ => ampleProgram_eq
    rw [show t.lexeme = .endOfInput from ht]
    exact .pure ⟨rfl, rfl⟩
  | cons n ns ih =>
    obtain ⟨hcn, hcs⟩ := calmAll_cons.mp hc
    have ih := ih hns.2 hcs
    have hrests := separator_rests hns.2 rests_nil
    rw [List.append_nil] at hrests
    have hrest : SettlesOn (singleAll ns) ampleProgram
        ((if ns.head?.any (startsInParen true) then [.mark .semicolon] else []) ++ lineTokens ns)
        (BackAll [] ns) := by
      split
      · refine .congr (.peek fun t ht => ?_) fun _ => ampleProgram_eq
        simp only [ht]
        exact .advance ih
      · exact ih
    obtain ⟨l, ls, hl, hopens, -⟩ := head_statement hns.1
    rw [singleAll_cons, lineTokens_cons n ns .top hns.2]
    refine .congr (.current fun t ht => ?_) fun _ => ampleProgram_eq
    obtain rfl : t.lexeme = l := by
      rw [hl] at ht
      exact ht
    split
    case h_3 =>
      refine ((readable n).statement false hns.1 hcn hrests).bind ?_
      rintro a _ ⟨rfl, ha⟩
      exact hrest.map fun _ _ has => has.cons ha
    all_goals
      rename_i hlex
      rw [hlex] at hopens
      cases hopens

end Parse

end RealScript
