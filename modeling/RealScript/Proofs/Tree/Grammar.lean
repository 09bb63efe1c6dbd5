import RealScript.Proofs.Tree.Names
import RealScript.Tree.Parser

/-! # What scanning and parsing can give

The tokens of a source spell names and numbers, and the trees that are made from them have these
names and numbers in them. Definitions stand at the top of a program only, statements in bodies
only.
-/

namespace RealScript

structure IsName (x : String) : Prop where
  spelled : ∃ c cs, x.toList = c :: cs ∧ isLetter c = true ∧ ∀ d ∈ cs, isWordChar d = true
  free : Lexeme.ofWord x = .identifier x

def Numeral (x : Float) : Prop :=
  ∃ c cs, c.isDigit = true ∧ Decimal.read? (String.ofList (splitNumber false (c :: cs)).1) = some x

def Lexeme.Scanned : Lexeme → Prop
  | .identifier name => IsName name
  | .number _ x => Numeral x
  | .builtin name => name ∈ reservedNames
  | .operator op => op ∈ Operator.table
  | _ => True

def Scanned : List Token → Prop
  | [] => True
  | t :: ts => t.lexeme.Scanned ∧ (t.kind = .endOfInput → ts = []) ∧ Scanned ts

theorem Lexeme.ofWord_cases (w : String) :
    (∃ k, ofWord w = .keyword k) ∨ (ofWord w = .builtin w ∧ w ∈ reservedNames) ∨
      (∃ op ∈ Operator.table, ofWord w = .operator op) ∨ ofWord w = .identifier w := by
  unfold ofWord
  split
  · exact .inl ⟨_, rfl⟩
  · split
    · exact .inr (.inl ⟨rfl, by simpa using ‹reservedNames.contains w = true›⟩)
    · split
      · exact .inr (.inr (.inl ⟨_, List.mem_of_find?_eq_some ‹_›, rfl⟩))
      · exact .inr (.inr (.inr rfl))

theorem symbolAt_cases {c : Char} {cs taken rest : List Char} {l : Lexeme}
    (h : symbolAt c cs = some (l, taken, rest)) :
    (∃ op ∈ Operator.table, l = .operator op) ∨ ∃ m, l = .mark m := by
  unfold symbolAt at h
  extract_lets one at h
  have hone : one = some (l, taken, rest) →
      (∃ op ∈ Operator.table, l = .operator op) ∨ ∃ m, l = .mark m := by
    intro h
    dsimp only [one] at h
    split at h
    · obtain ⟨rfl, -⟩ := Prod.mk.inj (Option.some.inj h)
      exact .inl ⟨_, List.mem_of_find?_eq_some ‹_›, rfl⟩
    · obtain ⟨m, -, h⟩ := Option.map_eq_some_iff.mp h
      exact .inr ⟨m, (Prod.mk.inj h).1.symm⟩
  split at h
  · split at h
    · obtain ⟨rfl, -⟩ := Prod.mk.inj (Option.some.inj h)
      exact .inl ⟨_, List.mem_of_find?_eq_some ‹_›, rfl⟩
    · exact hone h
  · exact hone h

theorem scanned_tokenAt {c : Char} {cs taken rest : List Char} {l : Lexeme}
    (h : Cursor.tokenAt c cs = (.ok l, taken, rest)) : l.Scanned ∧ l.kind ≠ .endOfInput := by
  unfold Cursor.tokenAt at h
  split at h
  · obtain ⟨h, -⟩ := Prod.mk.inj h
    cases h
    have hword : ∀ d ∈ cs.takeWhile isWordChar, isWordChar d = true :=
      List.all_eq_true.mp List.all_takeWhile
    rcases Lexeme.ofWord_cases (String.ofList (c :: cs.takeWhile isWordChar)) with
      ⟨k, he⟩ | ⟨he, hr⟩ | ⟨op, hop, he⟩ | he <;> rw [he]
    · exact ⟨trivial, nofun⟩
    · exact ⟨hr, nofun⟩
    · exact ⟨hop, nofun⟩
    · exact ⟨⟨⟨c, _, String.toList_ofList, ‹_›, hword⟩, he⟩, nofun⟩
  · split at h
    · rename_i hdigit
      dsimp only at h
      split at h
      · rename_i x hx
        obtain ⟨h, -⟩ := Prod.mk.inj h
        cases h
        exact ⟨⟨c, cs, hdigit, hx⟩, nofun⟩
      · cases (Prod.mk.inj h).1
    · split at h
      · obtain ⟨h, -⟩ := Prod.mk.inj h
        cases h
        rcases symbolAt_cases ‹_› with ⟨op, hop, rfl⟩ | ⟨m, rfl⟩
        · exact ⟨hop, nofun⟩
        · exact ⟨trivial, nofun⟩
      · cases (Prod.mk.inj h).1

theorem Cursor.scanned_next {cur cur' : Cursor} {t : Token} (h : cur.next = (.ok t, cur')) :
    t.lexeme.Scanned := by
  unfold next at h
  dsimp only at h
  split at h
  · split at h
    · cases (Prod.mk.inj h).1
    · obtain rfl := Except.ok.inj (Prod.mk.inj h).1
      trivial
  · split at h
    · rename_i hl
      obtain rfl := Except.ok.inj (Prod.mk.inj h).1
      exact (scanned_tokenAt (Prod.ext hl rfl)).1
    · cases (Prod.mk.inj h).1

theorem Scan.scanned_run (fuel : Nat) (cur : Cursor) : Scanned (run fuel cur).tokens := by
  induction fuel generalizing cur with
  | zero => trivial
  | succ fuel ih =>
    unfold run
    split
    · trivial
    · rename_i t cur' h
      split
      · exact ⟨cur.scanned_next h, fun _ => rfl, trivial⟩
      · exact ⟨cur.scanned_next h, fun he => absurd he ‹_›, ih cur'⟩

inductive Level where
  | operand | body | top
  deriving DecidableEq

namespace Node

mutual

def Shaped : Level → Node → Prop
  | _, .number _ x => Numeral x
  | _, .ident _ name => IsName name
  | _, .unary _ op x => op = "not" ∧ x.Shaped .operand
  | _, .binary _ op l r => (∃ o ∈ Operator.table, o.isBinary = true ∧ o.spelling = op) ∧
      l.Shaped .operand ∧ r.Shaped .operand
  | _, .call _ false name args => IsName name ∧ ShapedAll .operand args
  | _, .call _ true name args => name ∈ reservedNames ∧ ShapedAll .operand args
  | _, .collection _ _ elements => elements ≠ [] ∧ ShapedAll .operand elements
  | level, .conditional _ c body none => level ≠ .operand ∧ c.Shaped .operand ∧ ShapedAll .body body
  | level, .conditional _ c body (some other) => level ≠ .operand ∧ c.Shaped .operand ∧
      ShapedAll .body body ∧ ShapedAll .body other
  | level, .whileLoop _ c body => level ≠ .operand ∧ c.Shaped .operand ∧ ShapedAll .body body
  | level, .forLoop _ var start stop none body => level ≠ .operand ∧ IsName var ∧
      start.Shaped .operand ∧ stop.Shaped .operand ∧ ShapedAll .body body
  | level, .forLoop _ var start stop (some step) body => level ≠ .operand ∧ IsName var ∧
      start.Shaped .operand ∧ stop.Shaped .operand ∧ step.Shaped .operand ∧ ShapedAll .body body
  | _, .funcLit _ params body => (∀ x ∈ params, IsName x) ∧ ShapedAll .body body
  | level, .funcDef _ name params body => level = .top ∧ IsName name ∧ (∀ x ∈ params, IsName x) ∧
      ShapedAll .body body
  | level, .hostDecl _ name params => level = .top ∧ IsName name ∧ ∀ x ∈ params, IsName x
  | level, .ret _ x => level ≠ .operand ∧ x.Shaped .operand

def ShapedAll : Level → List Node → Prop
  | _, [] => True
  | level, n :: ns => n.Shaped level ∧ ShapedAll level ns

def openings : Node → Nat
  | .number _ _ | .ident _ _ => 0
  | .unary _ _ x => x.openings
  | .binary _ _ l r => l.openings + r.openings
  | .call _ builtin _ args => (if builtin then 0 else 1) + openingsAll args
  | .collection _ _ elements => openingsAll elements
  | .conditional _ c body none => c.openings + openingsAll body
  | .conditional _ c body (some other) => c.openings + openingsAll body + openingsAll other
  | .whileLoop _ c body => c.openings + openingsAll body
  | .forLoop _ _ start stop none body => start.openings + stop.openings + openingsAll body
  | .forLoop _ _ start stop (some step) body =>
    start.openings + stop.openings + step.openings + openingsAll body
  | .funcLit _ _ body => openingsAll body
  | .funcDef _ _ _ body => 1 + openingsAll body
  | .hostDecl _ _ _ => 1
  | .ret _ x => x.openings

def openingsAll : List Node → Nat
  | [] => 0
  | n :: ns => n.openings + openingsAll ns

end

theorem Shaped.of_operand {n : Node} (h : n.Shaped .operand) (level : Level) : n.Shaped level := by
  cases n with
  | conditional _ _ _ other => cases other <;> exact absurd rfl h.1
  | forLoop _ _ _ _ step _ => cases step <;> exact absurd rfl h.1
  | whileLoop | ret => exact absurd rfl h.1
  | funcDef | hostDecl => cases h.1
  | call _ builtin => cases builtin <;> exact h
  | _ => exact h

mutual

theorem Shaped.named {P : String → Prop} (hname : ∀ x, IsName x → P x)
    (hreserved : ∀ x ∈ reservedNames, P x) (level : Level) (n : Node) (h : n.Shaped level) :
    n.Named P := by
  match n with
  | .number _ _ => trivial
  | .ident _ _ => exact hname _ h
  | .unary _ _ x => exact Shaped.named hname hreserved _ x h.2
  | .binary _ _ l r =>
    exact ⟨Shaped.named hname hreserved _ l h.2.1, Shaped.named hname hreserved _ r h.2.2⟩
  | .call _ false _ args => exact ⟨hname _ h.1, ShapedAll.named hname hreserved _ args h.2⟩
  | .call _ true _ args => exact ⟨hreserved _ h.1, ShapedAll.named hname hreserved _ args h.2⟩
  | .collection _ _ elements => exact ShapedAll.named hname hreserved _ elements h.2
  | .conditional _ c body none =>
    exact ⟨Shaped.named hname hreserved _ c h.2.1, ShapedAll.named hname hreserved _ body h.2.2⟩
  | .conditional _ c body (some other) =>
    exact ⟨Shaped.named hname hreserved _ c h.2.1, ShapedAll.named hname hreserved _ body h.2.2.1,
      ShapedAll.named hname hreserved _ other h.2.2.2⟩
  | .whileLoop _ c body =>
    exact ⟨Shaped.named hname hreserved _ c h.2.1, ShapedAll.named hname hreserved _ body h.2.2⟩
  | .forLoop _ _ start stop none body =>
    exact ⟨hname _ h.2.1, Shaped.named hname hreserved _ start h.2.2.1,
      Shaped.named hname hreserved _ stop h.2.2.2.1,
        ShapedAll.named hname hreserved _ body h.2.2.2.2⟩
  | .forLoop _ _ start stop (some step) body =>
    exact ⟨hname _ h.2.1, Shaped.named hname hreserved _ start h.2.2.1,
      Shaped.named hname hreserved _ stop h.2.2.2.1,
        Shaped.named hname hreserved _ step h.2.2.2.2.1,
      ShapedAll.named hname hreserved _ body h.2.2.2.2.2⟩
  | .funcLit _ _ body =>
    exact ⟨fun x hx => hname x (h.1 x hx), ShapedAll.named hname hreserved _ body h.2⟩
  | .funcDef _ _ _ body =>
    exact ⟨hname _ h.2.1, fun x hx => hname x (h.2.2.1 x hx),
      ShapedAll.named hname hreserved _ body h.2.2.2⟩
  | .hostDecl _ _ _ => exact ⟨hname _ h.2.1, fun x hx => hname x (h.2.2 x hx)⟩
  | .ret _ x => exact Shaped.named hname hreserved _ x h.2

theorem ShapedAll.named {P : String → Prop} (hname : ∀ x, IsName x → P x)
    (hreserved : ∀ x ∈ reservedNames, P x) (level : Level) (ns : List Node)
    (h : ShapedAll level ns) : NamedAll P ns := by
  match ns with
  | [] => trivial
  | n :: ns =>
    exact ⟨Shaped.named hname hreserved _ n h.1, ShapedAll.named hname hreserved _ ns h.2⟩

end

end Node

end RealScript
