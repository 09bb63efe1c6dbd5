import RealScript.Proofs.Decimal.Reading
import RealScript.Proofs.Tree.Reparse

/-! # Writing expressions

Every expression can be written. The tree need not come from a source: whatever is put together from
numbers, variables, operators, calls and lists is read back from its text as a program of one
statement.
-/

namespace RealScript

def ScansAs (s : String) (l : Lexeme) : Prop :=
  ∃ p q, scan (.ofString s) = .ok [⟨l, p⟩, ⟨.endOfInput, q⟩]

theorem ScansAs.scanned {s : String} {l : Lexeme} (h : ScansAs s l) : l.Scanned := by
  obtain ⟨p, q, h⟩ := h
  have hall := Scan.scanned_run ((Cursor.ofString s).rest.length + 1) (.ofString s)
  unfold scan at h
  dsimp only at h
  split at h
  · cases h
  · rw [Scan.ofCursor] at h
    rw [Except.ok.inj h] at hall
    exact hall.1

namespace Node

mutual

/-- A tree of numbers that are read back from their texts, variables, operators, calls and lists. -/
def IsExpression : Node → Prop
  | .number _ x => Decimal.Unsigned x ∧ Decimal.ReadsBack x
  | .ident _ name => ScansAs name (.identifier name)
  | .unary _ op x => op = "not" ∧ x.IsExpression
  | .binary _ op l r => (∃ o ∈ Operator.table, o.isBinary = true ∧ o.spelling = op) ∧
      l.IsExpression ∧ r.IsExpression
  | .call _ false name args => ScansAs name (.identifier name) ∧ IsExpressionAll args
  | .call _ true name args => ScansAs name (.builtin name) ∧ IsExpressionAll args
  | .collection _ sequence elements => sequence = false ∧ elements ≠ [] ∧ IsExpressionAll elements
  | _ => False

def IsExpressionAll : List Node → Prop
  | [] => True
  | n :: ns => n.IsExpression ∧ IsExpressionAll ns

end

mutual

theorem IsExpression.shaped (n : Node) (h : n.IsExpression) : n.Shaped .operand := by
  match n with
  | .number _ _ => exact h.2.numeral h.1
  | .ident _ _ => exact h.scanned
  | .unary _ _ x => exact ⟨h.1, IsExpression.shaped x h.2⟩
  | .binary _ _ l r => exact ⟨h.1, IsExpression.shaped l h.2.1, IsExpression.shaped r h.2.2⟩
  | .call _ false _ ns | .call _ true _ ns => exact ⟨h.1.scanned, IsExpressionAll.shaped ns h.2⟩
  | .collection _ _ ns => exact ⟨h.2.1, IsExpressionAll.shaped ns h.2.2⟩
  | .conditional .. | .whileLoop .. | .forLoop .. | .funcLit .. | .funcDef .. | .hostDecl ..
  | .ret .. => simp only [IsExpression] at h

theorem IsExpressionAll.shaped (ns : List Node) (h : IsExpressionAll ns) :
    ShapedAll .operand ns := by
  match ns with
  | [] => trivial
  | n :: ns => exact ⟨IsExpression.shaped n h.1, IsExpressionAll.shaped ns h.2⟩

end

def Simple (n : Node) : Prop := n.spills = false ∧ n.doubled = false ∧
    ∀ x ∈ n.value?, Decimal.ReadsBack x

mutual

theorem IsExpression.simple (n : Node) (h : n.IsExpression) : ∀ m ∈ n.preorder, m.Simple := by
  match n with
  | .number _ x =>
    refine List.forall_mem_singleton.mpr ⟨rfl, rfl, fun y hy => ?_⟩
    obtain rfl : x = y := Option.some.inj hy
    exact h.2
  | .ident _ _ => exact List.forall_mem_singleton.mpr ⟨rfl, rfl, nofun⟩
  | .unary _ _ x => exact List.forall_mem_cons.mpr ⟨⟨rfl, rfl, nofun⟩, IsExpression.simple x h.2⟩
  | .binary _ _ l r =>
    exact List.forall_mem_cons.mpr ⟨⟨rfl, rfl, nofun⟩, List.forall_mem_append.mpr
      ⟨IsExpression.simple l h.2.1, IsExpression.simple r h.2.2⟩⟩
  | .call _ false _ ns | .call _ true _ ns =>
    exact List.forall_mem_cons.mpr ⟨⟨rfl, rfl, nofun⟩, IsExpressionAll.simple ns h.2⟩
  | .collection _ _ ns =>
    obtain ⟨rfl, -, hns⟩ := h
    exact List.forall_mem_cons.mpr ⟨⟨rfl, rfl, nofun⟩, IsExpressionAll.simple ns hns⟩
  | .conditional .. | .whileLoop .. | .forLoop .. | .funcLit .. | .funcDef .. | .hostDecl ..
  | .ret .. => simp only [IsExpression] at h

theorem IsExpressionAll.simple (ns : List Node) (h : IsExpressionAll ns) :
    ∀ m ∈ preorderAll ns, m.Simple := by
  match ns with
  | [] => exact List.forall_mem_nil _
  | n :: ns =>
    exact List.forall_mem_append.mpr ⟨IsExpression.simple n h.1, IsExpressionAll.simple ns h.2⟩

end

end Node

namespace Parse

theorem operand_reads {e : Token} {n : Node} {ts : List Token} (he : e.lexeme = .endOfInput)
    (hn : n.Shaped .operand) (hc : n.Calm) (hts : ts.map Token.lexeme = n.lexemes false) :
    Settles e n.single ampleProgram ts fun p us => us = [] ∧ ∃ m, p = [m] ∧ m.unplaced =
    n.unplaced := by
  have hread : SettlesOn n.single ampleProgram (n.lexemes false)
      fun p ls => ls = [] ∧ ∃ m, p = [m] ∧ m.unplaced = n.unplaced := by
    have hexpression := (readable n).expression hn hc (rests_nil.ends n)
    rw [List.append_nil] at hexpression
    obtain ⟨l, ls, hl, hopens, -, -, -, hfunc⟩ := Node.head_operand hn
    rw [hl] at hexpression ⊢
    refine .congr (.peek fun t ht => ?_) fun _ => ampleProgram_eq
    subst ht
    split
    case h_3 =>
      refine (statement_of_expression false hopens hfunc hexpression).finish ?_
      rintro m _ ⟨rfl, hm⟩
      -- Behind the statement stands the end of the input.
      refine (program_reads (show Node.ShapedAll .top [] from trivial) nofun).map ?_
      rintro p _ ⟨rfl, hp⟩
      obtain rfl : p = [] := by cases p with
        | nil => rfl
        | cons => cases hp
      exact ⟨rfl, m, rfl, hm⟩
    all_goals
      rename_i hlex
      rw [hlex] at hopens
      cases hopens
  exact (hread he hts).mono fun _ _ h => ⟨List.map_eq_nil_iff.mp h.1, h.2⟩

end Parse

namespace Node

/-- The text of an expression is a program of one statement, which is that expression up to
positions. -/
theorem IsExpression.parse_render {n : Node} (hn : n.IsExpression) (depth : Nat) :
    ∃ m, Program.parse (n.render false depth) = .ok [m] ∧ m.unplaced = n.unplaced := by
  have hshaped := IsExpression.shaped n hn
  have hsimple := IsExpression.simple n hn
  have hv : n.Legible := fun m hm => (hsimple m hm).2.2
  have hsingle : n.single = true := by simpa [single] using fun m hm => (hsimple m hm).2.1
  have hspells := (render_solid false depth n _ hshaped hv).spells
  obtain ⟨ts, e, hscan, hts, hkind⟩ := hspells.scan {}
  have he : e.lexeme = .endOfInput := by
    unfold Token.kind at hkind
    cases hl : e.lexeme <;> simp_all [Lexeme.kind]
  have hread := Parse.operand_reads he hshaped (fun m hm => (hsimple m hm).1) hts
  rw [hsingle] at hread
  obtain ⟨p, us, hp, -, m, rfl, hm⟩ := hread
  refine ⟨m, ?_, hm⟩
  have hscan : Scan.ofCursor (.ofString (n.render false depth)) = { tokens := ts ++ [e] } := hscan
  rw [Program.parse, Program.parseCursor, hscan, Program.ofScan_of_end he, hp]
  rfl

/-- An assignment as an operand, a call of a built-in function, a list and a number that has no
exact binary form. -/
theorem IsExpression.parse_render_nested :
    let tenth := Decimal.ofBitsNat false 0x3FB999999999999A
    let n : Node := .binary {} "*" (.unary {} "not" (.binary {} "=" (.ident {} "x")
      (.number {} tenth)))
      (.call {} true "fold" [.collection {} false [.call {} false "f" [], .ident {} "y"]])
    n.IsExpression ∧ ∃ m, Program.parse (n.render false 0) = .ok [m] ∧ m.unplaced = n.unplaced := by
  intro tenth n
  have htenth : Decimal.Unsigned tenth ∧ Decimal.ReadsBack tenth :=
    ⟨Decimal.unsigned_ofBitsNat (by decide), by decide +kernel⟩
  have hn : n.IsExpression :=
    ⟨by decide, ⟨rfl, by decide, ⟨_, _, rfl⟩, htenth⟩,
      ⟨_, _, rfl⟩, ⟨rfl, List.cons_ne_nil _ _, ⟨⟨_, _, rfl⟩, trivial⟩, ⟨_, _, rfl⟩,
        trivial⟩, trivial⟩
  exact ⟨hn, hn.parse_render 0⟩

end Node

end RealScript
