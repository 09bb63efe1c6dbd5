import RealScript.Proofs.Token.Numbers
import RealScript.Tree.Printer

/-! # The tokens of printed trees

What is printed is put together from tokens that do not run on into each other, so that the text of
a tree has the tokens that were meant.
-/

namespace RealScript

variable {ls : List Lexeme} {cs : List Char}

variable {xs : List (List Lexeme)} {ss : List String}

/-! ## Texts -/

theorem breaks_cons {c : Char} (h : isEdge c = true) (cs : List Char) : Breaks (c :: cs) := by
  rintro d ⟨⟩
  exact h

theorem breaks_nil : Breaks [] := by nofun

def leadsParen : List Lexeme → Bool
  | .mark .leftParen :: _ => true
  | _ => false

namespace Spells

variable {ds : List Char} {ms : List Lexeme}

theorem mark (m : Mark) (h : Spells cs ls) : Spells (m.char :: cs) (.mark m :: ls) := by
  have htoken : Spells ((Lexeme.mark m).spelling.toList ++ cs) (.mark m :: ls) :=
    .token (l := .mark m) trivial trivial h
  simpa [Lexeme.spelling] using htoken

theorem keyword (k : Keyword) (hcs : Breaks cs) (h : Spells cs ls) :
    Spells (k.spelling.toList ++ cs) (.keyword k :: ls) :=
  .token (l := .keyword k) trivial hcs h

theorem blanks (hds : ∀ c ∈ ds, Text.isBlank c = true) (h : Spells cs ls) :
    Spells (ds ++ cs) ls := by
  induction ds with
  | nil => exact h
  | cons c ds ih =>
    exact .blank (hds c List.mem_cons_self) (ih fun d hd => hds d (List.mem_cons_of_mem c hd))

theorem space (h : Spells cs ls) : Spells (' ' :: cs) ls := .blank (by decide) h

theorem newline (h : Spells cs ls) : Spells ('\n' :: cs) ls := .blank (by decide) h

end Spells

theorem Lexeme.Spelled.head {l : Lexeme} (h : l.Spelled) (ls : List Lexeme) :
    ∃ c cs, l.spelling.toList = c :: cs ∧ (c = '(' ↔ leadsParen (l :: ls) = true) := by
  have hword (c : Char) (hc : isWordChar c = true) : c ≠ '(' := by
    rintro rfl
    revert hc
    decide
  have hother (s : String) (hs : s.toList ≠ [] ∧ s.toList.head? ≠ some '(') :
      ∃ c cs, s.toList = c :: cs ∧ c ≠ '(' := by
    cases hcs : s.toList with
    | nil => exact absurd hcs hs.1
    | cons c cs => exact ⟨c, cs, rfl, fun hc => hs.2 (by rw [hcs, hc]; rfl)⟩
  cases l with
  | endOfInput => exact h.elim
  | identifier name =>
    obtain ⟨⟨c, cs, hname, hc, -⟩, -⟩ := h
    exact ⟨c, cs, hname, by simp [leadsParen, hword c (by simp [isWordChar, hc])]⟩
  | number text x =>
    obtain ⟨-, c, cs, htext, hc, -⟩ := h
    exact ⟨c, cs, htext, by simp [leadsParen, hword c (by simp [isWordChar, hc])]⟩
  | builtin name =>
    have hstart : ∀ w ∈ reservedNames, w.toList ≠ [] ∧ w.toList.head? ≠ some '(' := by decide
    obtain ⟨c, cs, hcs, hc⟩ := hother name (hstart name h)
    exact ⟨c, cs, hcs, by simp [leadsParen, hc]⟩
  | operator op =>
    have hstart : ∀ o ∈ Operator.table, o.spelling.toList ≠ [] ∧ o.spelling.toList.head? ≠
      some '(' := by
      decide
    obtain ⟨c, cs, hcs, hc⟩ := hother op.spelling (hstart op h)
    exact ⟨c, cs, hcs, by simp [leadsParen, hc]⟩
  | keyword k =>
    obtain ⟨c, cs, hcs, hc⟩ := hother k.spelling (by cases k <;> decide)
    exact ⟨c, cs, hcs, by simp [leadsParen, hc]⟩
  | mark m =>
    exact ⟨m.char, [], by simp [Lexeme.spelling], by cases m <;> simp [leadsParen, Mark.char]⟩

structure Solid (s : String) (ls : List Lexeme) : Prop where
  spells : Spells s.toList ls
  starts : ∃ c cs, s.toList = c :: cs ∧ Text.isBlank c = false

namespace Solid

variable {s t : String} {l : Lexeme} {ms : List Lexeme} {r : List Char}

theorem of_token (hs : s.toList = l.spelling.toList ++ r) (hl : l.Spelled) (hp : l.Parts r)
    (h : Spells r ls) : Solid s (l :: ls) := by
  refine ⟨hs ▸ .token hl hp h, ?_⟩
  obtain ⟨c, ds, hspell, -⟩ := Cursor.tokenAt_spelled hl hp
  refine ⟨c, ds ++ r, by rw [hs, hspell]; rfl, ?_⟩
  exact (Cursor.start_of_spelled hl c (by rw [hspell]; rfl)).1

theorem of_append (hs : s.toList = t.toList ++ r) (ht : Solid t ls) (hb : Breaks r)
    (h : Spells r ms) : Solid s (ls ++ ms) := by
  refine ⟨hs ▸ ht.spells.append h hb, ?_⟩
  obtain ⟨c, ds, hds, hc⟩ := ht.starts
  exact ⟨c, ds ++ r, by rw [hs, hds]; rfl, hc⟩

end Solid

theorem Solid.startsWith {s : String} (h : Solid s ls) : s.startsWith "(" = leadsParen ls := by
  obtain ⟨c, cs, hcs, hc⟩ := h.starts
  have hiff : s.startsWith "(" = true ↔ c = '(' := by
    rw [String.startsWith_string_iff, hcs]
    simp [List.cons_prefix_cons, eq_comm]
  have hspells := h.spells
  rw [hcs] at hspells
  rw [Bool.eq_iff_iff, hiff]
  generalize hl : c :: cs = l at hspells
  cases hspells with
  | nil => cases hl
  | blank hblank =>
    obtain ⟨rfl, -⟩ := List.cons.inj hl
    rw [hc] at hblank
    cases hblank
  | @token l _ ls hl' =>
    obtain ⟨d, ds, hspell, hiff⟩ := hl'.head ls
    rw [hspell] at hl
    obtain ⟨rfl, -⟩ := List.cons.inj hl
    exact hiff

/-! ## Trees -/

namespace Node

def value? : Node → Option Float
  | .number _ x => some x
  | _ => none

def Legible (n : Node) : Prop := ∀ m ∈ n.preorder, ∀ x ∈ m.value?, Decimal.ReadsBack x

def LegibleAll (ns : List Node) : Prop := ∀ m ∈ preorderAll ns, ∀ x ∈ m.value?, Decimal.ReadsBack x

instance (ns : List Node) : Decidable (LegibleAll ns) :=
  inferInstanceAs (Decidable (∀ m ∈ preorderAll ns, ∀ x ∈ m.value?, Decimal.ReadsBack x))

def operatorLexeme (op : String) : Lexeme := .operator ((Operator.find? op).getD {})

def furtherLexemes : List (List Lexeme) → List Lexeme
  | [] => []
  | x :: xs => .mark .comma :: (x ++ furtherLexemes xs)

def commaLexemes : List (List Lexeme) → List Lexeme
  | [] => []
  | x :: xs => x ++ furtherLexemes xs

def lineLexemes : List (List Lexeme) → List Lexeme
  | [] => []
  | x :: xs => x ++ ((if xs.head?.any leadsParen then [.mark .semicolon] else []) ++ lineLexemes xs)

def paramLexemes (params : List String) : List Lexeme :=
  .mark .leftParen :: (commaLexemes (params.map fun x => [.identifier x]) ++ [.mark .rightParen])

mutual

def lexemes (statement : Bool) : Node → List Lexeme
  | .number _ x => [.number (Decimal.positional x) x]
  | .ident _ name => [.identifier name]
  | .unary _ op x => operatorLexeme op :: lexemes false x
  | .binary _ op l r =>
    let body := lexemes false l ++ operatorLexeme op :: lexemes false r
    if statement && op == "=" then body else .mark .leftParen :: (body ++ [.mark .rightParen])
  | .call _ builtin callee args =>
    let args := lexemesAll false args
    if builtin then
      .keyword .doCall :: .mark .leftParen :: .builtin callee :: (furtherLexemes args ++
        [.mark .rightParen])
    else .identifier callee :: .mark .leftParen :: (commaLexemes args ++ [.mark .rightParen])
  | .collection _ sequence elements =>
    let elements := commaLexemes (elementLexemes elements)
    if sequence then .mark .pipe :: (elements ++ [.mark .pipe])
    else .mark .leftBracket :: (elements ++ [.mark .rightBracket])
  | .conditional _ c body none =>
    .keyword .ifThen :: (lexemes false c ++ (lineLexemes (lexemesAll true body) ++
      [.keyword .done]))
  | .conditional _ c body (some otherwise) =>
    .keyword .ifThen :: (lexemes false c ++ (lineLexemes (lexemesAll true body) ++
      .keyword .orElse :: (lineLexemes (lexemesAll true otherwise) ++ [.keyword .done])))
  | .whileLoop _ c body =>
    .keyword .whileLoop :: (lexemes false c ++ (lineLexemes (lexemesAll true body) ++
      [.keyword .done]))
  | .forLoop _ var start stop none body =>
    .keyword .forLoop :: .identifier var :: operatorLexeme "=" :: (lexemes false start ++
      .mark .comma :: (lexemes false stop ++ (lineLexemes (lexemesAll true body) ++
        [.keyword .done])))
  | .forLoop _ var start stop (some step) body =>
    .keyword .forLoop :: .identifier var :: operatorLexeme "=" :: (lexemes false start ++
      .mark .comma :: (lexemes false stop ++ .mark .comma :: (lexemes false step ++
        (lineLexemes (lexemesAll true body) ++ [.keyword .done]))))
  | .funcLit _ params body =>
    .keyword .func :: (paramLexemes params ++
      .mark .leftBrace :: (lineLexemes (lexemesAll true body) ++ [.mark .rightBrace]))
  | .funcDef _ name params body =>
    .keyword .func :: .identifier name :: (paramLexemes params ++
      .mark .leftBrace :: (lineLexemes (lexemesAll true body) ++ [.mark .rightBrace]))
  | .hostDecl _ name params => .keyword .host :: .identifier name :: paramLexemes params
  | .ret _ x => .keyword .ret :: lexemes false x

def lexemesAll (statement : Bool) : List Node → List (List Lexeme)
  | [] => []
  | n :: ns => lexemes statement n :: lexemesAll statement ns

def elementLexemes : List Node → List (List Lexeme)
  | [] => []
  | n :: ns =>
    (if n.isUnary then .mark .leftParen :: (lexemes false n ++ [.mark .rightParen])
      else lexemes false n) :: elementLexemes ns

end

section Equations

variable (statement : Bool) (pos : Position) (name : String) (ns : List Node) (l r : Node)

theorem lexemes_builtin : lexemes statement (.call pos true name ns) =
    .keyword .doCall :: .mark .leftParen :: .builtin name ::
      (furtherLexemes (lexemesAll false ns) ++ [.mark .rightParen]) := by
  rw [lexemes, if_pos rfl]

theorem lexemes_call : lexemes statement (.call pos false name ns) =
    .identifier name :: .mark .leftParen :: (commaLexemes (lexemesAll false ns) ++
    [.mark .rightParen]) := by
  rw [lexemes, if_neg Bool.false_ne_true]

theorem lexemes_sequence : lexemes statement (.collection pos true ns) =
    .mark .pipe :: (commaLexemes (elementLexemes ns) ++ [.mark .pipe]) := by
  rw [lexemes, if_pos rfl]

theorem lexemes_list : lexemes statement (.collection pos false ns) =
    .mark .leftBracket :: (commaLexemes (elementLexemes ns) ++ [.mark .rightBracket]) := by
  rw [lexemes, if_neg Bool.false_ne_true]

theorem lexemes_group {op : String} (h : statement = false ∨ op ≠ "=") :
    lexemes statement (.binary pos op l r) = .mark .leftParen ::
      (lexemes false l ++ operatorLexeme op :: lexemes false r ++ [.mark .rightParen]) := by
  rw [lexemes, if_neg (by simpa [Decidable.imp_iff_not_or] using h)]

theorem lexemes_assign : lexemes true (.binary pos "=" l r) =
    lexemes false l ++ operatorLexeme "=" :: lexemes false r := by
  rw [lexemes, if_pos (by decide)]

end Equations

/-! ## Texts of trees -/

theorem operatorLexeme_spelling {o : Operator} (h : o ∈ Operator.table) :
    operatorLexeme o.spelling = .operator o := by
  have hfind : ∀ o ∈ Operator.table, Operator.find? o.spelling = some o := by decide
  rw [operatorLexeme, hfind o h]
  rfl

def SolidAll : List String → List (List Lexeme) → Prop
  | [], [] => True
  | s :: ss, x :: xs => Solid s x ∧ SolidAll ss xs
  | _, _ => False

theorem toList_indentation (depth : Nat) : (indentation depth).toList = List.replicate
    (2 * depth) ' ' := by
  rw [indentation, String.pushn_eq_repeat_push]
  generalize 2 * depth = n
  induction n with
  | zero => rfl
  | succ n ih => simp [Nat.repeat, ih, List.replicate_succ']

theorem spells_indentation (depth : Nat) (h : Spells cs ls) :
    Spells ((indentation depth).toList ++ cs) ls := by
  refine h.blanks fun c hc => ?_
  rw [toList_indentation] at hc
  rw [List.eq_of_mem_replicate hc]
  decide

theorem SolidAll.startsWith {ss : List String} {xs : List (List Lexeme)} (h : SolidAll ss xs) :
    ss.head?.any (·.startsWith "(") = xs.head?.any leadsParen := by
  cases ss with
  | nil =>
    cases xs with
    | nil => rfl
    | cons => exact h.elim
  | cons s ss =>
    cases xs with
    | nil => exact h.elim
    | cons x xs => exact h.1.startsWith

theorem toList_commas (s : String) (ss : List String) :
    (commas (s :: ss)).toList = s.toList ++ ss.flatMap fun s => ',' :: ' ' :: s.toList := by
  induction ss generalizing s with
  | nil => simp [commas]
  | cons t ss ih =>
    have hstep : (commas (s :: t :: ss)).toList = s.toList ++
      ',' :: ' ' :: (commas (t :: ss)).toList := by
      simp [commas, String.intercalate_cons_cons]
    rw [hstep, ih, List.flatMap_cons]
    rfl

theorem breaks_further_append (ss : List String) (h : Breaks cs) :
    Breaks ((ss.flatMap fun s => ',' :: ' ' :: s.toList) ++ cs) := by
  cases ss with
  | nil => exact h
  | cons s ss => exact breaks_cons (by decide) _

theorem breaks_further (ss : List String) :
    Breaks (ss.flatMap fun s => ',' :: ' ' :: s.toList) := by
  simpa using breaks_further_append ss breaks_nil

theorem toList_lines_cons (depth : Nat) (s : String) (ss : List String) :
    (lines depth (s :: ss)).toList = (indentation depth).toList ++ (s.toList ++
      ((if ss.head?.any (·.startsWith "(") then [';'] else []) ++
      '\n' :: (lines depth ss).toList)) := by
  cases ss with
  | nil => simp [lines]
  | cons t ss =>
    rw [lines]
    cases ht : t.startsWith "(" <;> simp [ht]

theorem breaks_separator (b : Bool) (cs : List Char) :
    Breaks ((if b then [';'] else []) ++ '\n' :: cs) := by
  cases b <;> exact breaks_cons (by decide) _

theorem spells_further (h : SolidAll ss xs) :
    Spells (ss.flatMap fun s => ',' :: ' ' :: s.toList) (furtherLexemes xs) := by
  induction ss generalizing xs with
  | nil =>
    cases xs with
    | nil => exact .nil
    | cons => exact h.elim
  | cons s ss ih =>
    cases xs with
    | nil => exact h.elim
    | cons x xs =>
      obtain ⟨hs, hss⟩ := h
      rw [List.flatMap_cons, furtherLexemes, List.cons_append, List.cons_append]
      exact .mark .comma (.space (hs.spells.append (ih hss) (breaks_further ss)))

theorem spells_commas (h : SolidAll ss xs) : Spells (commas ss).toList (commaLexemes xs) := by
  cases ss with
  | nil =>
    cases xs with
    | nil => exact .nil
    | cons => exact h.elim
  | cons s ss =>
    cases xs with
    | nil => exact h.elim
    | cons x xs =>
      rw [toList_commas, commaLexemes]
      exact h.1.spells.append (spells_further h.2) (breaks_further ss)

theorem spells_lines (depth : Nat) (h : SolidAll ss xs) (hcs : Spells cs ls) :
    Spells ((lines depth ss).toList ++ cs) (lineLexemes xs ++ ls) := by
  induction ss generalizing xs with
  | nil =>
    cases xs with
    | nil => exact hcs
    | cons => exact h.elim
  | cons s ss ih =>
    cases xs with
    | nil => exact h.elim
    | cons x xs =>
      obtain ⟨hs, hss⟩ := h
      have hrest := (ih hss).newline
      rw [toList_lines_cons, hss.startsWith, lineLexemes]
      simp only [List.append_assoc]
      refine spells_indentation depth (hs.spells.append ?_ (breaks_separator _ _))
      cases xs.head?.any leadsParen with
      | true => exact hrest.mark .semicolon
      | false => exact hrest

theorem solid_names {params : List String} (h : ∀ x ∈ params, IsName x) :
    SolidAll params (params.map fun x => [.identifier x]) := by
  induction params with
  | nil => trivial
  | cons x params ih =>
    refine ⟨.of_token (l := .identifier x) (by simp [Lexeme.spelling]) (h x List.mem_cons_self)
      (breaks_nil.parts _) .nil, ih fun y hy => h y (List.mem_cons_of_mem x hy)⟩

theorem spells_params {params : List String} (h : ∀ x ∈ params, IsName x) (hcs : Spells cs ls) :
    Spells ('(' :: ((commas params).toList ++ ')' :: cs)) (paramLexemes params ++ ls) := by
  rw [paramLexemes, List.cons_append, List.append_assoc]
  exact .mark .leftParen ((spells_commas (solid_names h)).append (.mark .rightParen hcs)
    (breaks_cons (by decide) _))

theorem spells_body (depth : Nat) (h : SolidAll ss xs) :
    Spells (' ' :: Mark.leftBrace.char :: '\n' :: ((lines (depth + 1) ss).toList ++
      ((indentation depth).toList ++ [Mark.rightBrace.char])))
      (.mark .leftBrace :: (lineLexemes xs ++ [.mark .rightBrace])) :=
  .space (.mark .leftBrace
    (.newline (spells_lines _ h (spells_indentation _ (.mark .rightBrace .nil)))))

theorem spells_done (depth : Nat) (h : SolidAll ss xs) : Spells
    ('\n' :: ((lines (depth + 1) ss).toList ++ ((indentation depth).toList ++ "done".toList)))
      (lineLexemes xs ++ [.keyword .done]) := by
  refine .newline (spells_lines _ h (spells_indentation _ ?_))
  have hdone := Spells.keyword .done breaks_nil .nil
  rwa [List.append_nil] at hdone

theorem spells_else {ts : List String} {ys : List (List Lexeme)} (depth : Nat) (h : SolidAll ss xs)
    (h' : SolidAll ts ys) :
    Spells
    ('\n' :: ((lines (depth + 1) ss).toList ++ ((indentation depth).toList ++ ("else".toList ++
      '\n' :: ((lines (depth + 1) ts).toList ++ ((indentation depth).toList ++ "done".toList))))))
      (lineLexemes xs ++ .keyword .orElse :: (lineLexemes ys ++ [.keyword .done])) :=
  .newline (spells_lines _ h (spells_indentation _
    (.keyword .orElse (breaks_cons (by decide) _) (spells_done depth h'))))

theorem spells_operator {s : String} (hop : ∃ o ∈ Operator.table, o.spelling = s)
    (hcs : Breaks cs) (h : Spells cs ls) :
    Spells (s.toList ++ cs) (operatorLexeme s :: ls) := by
  obtain ⟨o, ho, rfl⟩ := hop
  rw [operatorLexeme_spelling ho]
  exact .token (l := .operator o) ho (hcs.parts _) h

theorem spells_assign {name : String} (hname : IsName name)
    (h : Spells cs ls) : Spells (name.toList ++ ' ' :: '=' :: ' ' :: cs)
      (.identifier name :: operatorLexeme "=" :: ls) :=
  .token (l := .identifier name) hname ((breaks_cons (by decide) _).parts _)
    (.space (spells_operator (s := "=") (by decide) (breaks_cons (by decide) _) h.space))

mutual

theorem render_solid (statement : Bool) (depth : Nat) (n : Node) (level : Level)
    (hn : n.Shaped level) (hv : n.Legible) :
    Solid (n.render statement depth) (n.lexemes statement) := by
  match n with
  | .number _ x =>
    have hv : Decimal.ReadsBack x := hv _ List.mem_cons_self x rfl
    exact .of_token (l := .number (Decimal.positional x) x)
      (by rw [render.eq_def statement]; simp [Lexeme.spelling])
      (hv.spelled (Decimal.unsigned_of_numeral hn)) (breaks_nil.parts _) .nil
  | .ident _ name =>
    exact .of_token (l := .identifier name)
      (by rw [render.eq_def statement]; simp [Lexeme.spelling]) hn (breaks_nil.parts _)
      .nil
  | .unary _ op x =>
    obtain ⟨rfl, hx⟩ := hn
    have hx := (render_solid false depth x _ hx fun m hm => hv m (by simp [preorder, hm])).spells
    have hnot : operatorLexeme "not" = .operator ⟨"not", .unary, 0⟩ := rfl
    rw [lexemes, hnot]
    exact .of_token (r := ' ' :: (x.render false depth).toList)
      (by rw [render.eq_def statement]; simp [Lexeme.spelling])
      (by decide : (⟨"not", .unary, 0⟩ : Operator) ∈ Operator.table)
        ((breaks_cons (by decide) _).parts _)
      hx.space
  | .binary _ op l r =>
    obtain ⟨⟨o, ho, -, rfl⟩, hl, hr⟩ := hn
    have hl := render_solid false depth l _ hl fun m hm => hv m (by simp [preorder, hm])
    have hr := (render_solid false depth r _ hr fun m hm => hv m (by simp [preorder, hm])).spells
    have hright : Spells (o.spelling.toList ++ ' ' :: (r.render false depth).toList)
        (operatorLexeme o.spelling :: r.lexemes false) :=
      spells_operator ⟨o, ho, rfl⟩ (breaks_cons (by decide) _) hr.space
    rw [render.eq_def statement, lexemes]
    dsimp only
    split
    · exact .of_append (by simp) hl (breaks_cons (by decide) _) hright.space
    · refine .of_token (l := .mark .leftParen) (r := (l.render false depth).toList ++
        ' ' :: (o.spelling.toList ++ ' ' :: (r.render false depth).toList) ++ [')'])
        (by simp [Lexeme.spelling, Mark.char]) trivial trivial ?_
      exact (hl.spells.append hright.space (breaks_cons (by decide) _)).append
        (.mark .rightParen .nil)
        (breaks_cons (by decide) _)
  | .call _ true callee args =>
    have hargs := spells_further (renderAll_solid false depth args _ hn.2 fun m hm =>
      hv m (by simp [preorder, hm]))
    have hall := hargs.append (.mark .rightParen .nil) (breaks_cons (by decide) _)
    have hcallee := Spells.token (l := .builtin callee) hn.1
      ((breaks_further_append _ (breaks_cons (by decide) _)).parts _) hall
    exact .of_token (l := .keyword .doCall)
      (r := '(' :: (callee.toList ++ (((renderAll false depth args).flatMap fun s =>
        ',' :: ' ' :: s.toList) ++ [')'])))
      (by rw [render.eq_def statement]; simp [Lexeme.spelling, Keyword.spelling,
        toList_commas]) trivial
      ((breaks_cons (by decide) _).parts _) (.mark .leftParen hcallee)
  | .call _ false callee args =>
    have hargs := renderAll_solid false depth args _ hn.2 fun m hm => hv m (by simp [preorder, hm])
    have hall := (spells_commas hargs).append (.mark .rightParen .nil) (breaks_cons (by decide) _)
    exact .of_token (l := .identifier callee)
      (r := '(' :: ((commas (renderAll false depth args)).toList ++ [')']))
      (by rw [render.eq_def statement]; simp [Lexeme.spelling]) hn.1
        ((breaks_cons (by decide) _).parts _)
      (.mark .leftParen hall)
  | .collection _ true elements =>
    have helements := spells_commas (renderElements_solid depth elements hn.2 fun m hm =>
      hv m (by simp [preorder, hm]))
    exact .of_token (l := .mark .pipe)
      (r := (commas (renderElements depth elements)).toList ++ ['|'])
      (by rw [render.eq_def statement]; simp [Lexeme.spelling, Mark.char]) trivial trivial
      (helements.append (.mark .pipe .nil) (breaks_cons (by decide) _))
  | .collection _ false elements =>
    have helements := spells_commas (renderElements_solid depth elements hn.2 fun m hm =>
      hv m (by simp [preorder, hm]))
    exact .of_token (l := .mark .leftBracket)
      (r := (commas (renderElements depth elements)).toList ++ [']'])
      (by rw [render.eq_def statement]; simp [Lexeme.spelling, Mark.char]) trivial trivial
      (helements.append (.mark .rightBracket .nil) (breaks_cons (by decide) _))
  | .conditional _ c body none =>
    have hc := (render_solid false depth c _ hn.2.1 fun m hm => hv m
      (by simp [preorder, hm])).spells
    have hbody := renderAll_solid true (depth + 1) body _ hn.2.2 fun m hm =>
      hv m (by simp [preorder, hm])
    exact .of_token (l := .keyword .ifThen) (by rw [render.eq_def statement]; simp [Lexeme.spelling,
      Keyword.spelling])
      trivial ((breaks_cons (by decide) _).parts _)
      (.space (hc.append (spells_done depth hbody) (breaks_cons (by decide) _)))
  | .conditional _ c body (some other) =>
    have hc := (render_solid false depth c _ hn.2.1 fun m hm => hv m
      (by simp [preorder, hm])).spells
    have hbody := renderAll_solid true (depth + 1) body _ hn.2.2.1 fun m hm =>
      hv m (by simp [preorder, hm])
    have hother := renderAll_solid true (depth + 1) other _ hn.2.2.2 fun m hm =>
      hv m (by simp [preorder, hm])
    exact .of_token (l := .keyword .ifThen) (by rw [render.eq_def statement]; simp [Lexeme.spelling,
      Keyword.spelling])
      trivial ((breaks_cons (by decide) _).parts _)
      (.space (hc.append (spells_else depth hbody hother) (breaks_cons (by decide) _)))
  | .whileLoop _ c body =>
    have hc := (render_solid false depth c _ hn.2.1 fun m hm => hv m
      (by simp [preorder, hm])).spells
    have hbody := renderAll_solid true (depth + 1) body _ hn.2.2 fun m hm =>
      hv m (by simp [preorder, hm])
    exact .of_token (l := .keyword .whileLoop)
      (by rw [render.eq_def statement]; simp [Lexeme.spelling, Keyword.spelling])
      trivial ((breaks_cons (by decide) _).parts _)
      (.space (hc.append (spells_done depth hbody) (breaks_cons (by decide) _)))
  | .forLoop _ var start stop none body =>
    have hstart := (render_solid false depth start _ hn.2.2.1 fun m hm =>
      hv m (by simp [preorder, hm])).spells
    have hstop := (render_solid false depth stop _ hn.2.2.2.1 fun m hm =>
      hv m (by simp [preorder, hm])).spells
    have hbody := renderAll_solid true (depth + 1) body _ hn.2.2.2.2 fun m hm =>
      hv m (by simp [preorder, hm])
    have hhead := hstart.append (.mark .comma (hstop.append (spells_done depth hbody)
      (breaks_cons (by decide) _)).space) (breaks_cons (by decide) _)
    exact .of_token (l := .keyword .forLoop)
      (by rw [render.eq_def statement]; simp [Lexeme.spelling, Keyword.spelling, Mark.char])
      trivial ((breaks_cons (by decide) _).parts _) (.space (spells_assign hn.2.1 hhead))
  | .forLoop _ var start stop (some step) body =>
    have hstart := (render_solid false depth start _ hn.2.2.1 fun m hm =>
      hv m (by simp [preorder, hm])).spells
    have hstop := (render_solid false depth stop _ hn.2.2.2.1 fun m hm =>
      hv m (by simp [preorder, hm])).spells
    have hstep := (render_solid false depth step _ hn.2.2.2.2.1 fun m hm =>
      hv m (by simp [preorder, hm])).spells
    have hbody := renderAll_solid true (depth + 1) body _ hn.2.2.2.2.2 fun m hm =>
      hv m (by simp [preorder, hm])
    have htail := hstop.append (.mark .comma (hstep.append (spells_done depth hbody)
      (breaks_cons (by decide) _)).space) (breaks_cons (by decide) _)
    have hhead := hstart.append (.mark .comma htail.space) (breaks_cons (by decide) _)
    exact .of_token (l := .keyword .forLoop)
      (by rw [render.eq_def statement]; simp [Lexeme.spelling, Keyword.spelling, Mark.char])
      trivial ((breaks_cons (by decide) _).parts _) (.space (spells_assign hn.2.1 hhead))
  | .funcLit _ params body =>
    have hbody := renderAll_solid true (depth + 1) body _ hn.2 fun m hm => hv m
      (by simp [preorder, hm])
    exact .of_token (l := .keyword .func)
      (by rw [render.eq_def statement]; simp [Lexeme.spelling, Keyword.spelling, openBrace,
        closeBrace, Mark.char])
      trivial ((breaks_cons (by decide) _).parts _) (spells_params hn.1 (spells_body depth hbody))
  | .funcDef _ name params body =>
    have hbody := renderAll_solid true (depth + 1) body _ hn.2.2.2 fun m hm =>
      hv m (by simp [preorder, hm])
    have hname := Spells.token (l := .identifier name) hn.2.1 ((breaks_cons (by decide) _).parts _)
      (spells_params hn.2.2.1 (spells_body depth hbody))
    exact .of_token (l := .keyword .func)
      (by rw [render.eq_def statement]; simp [Lexeme.spelling, Keyword.spelling, openBrace,
        closeBrace, Mark.char])
      trivial ((breaks_cons (by decide) _).parts _) hname.space
  | .hostDecl _ name params =>
    have hname := Spells.token (l := .identifier name) hn.2.1 ((breaks_cons (by decide) _).parts _)
      (spells_params hn.2.2 .nil)
    rw [List.append_nil] at hname
    exact .of_token (l := .keyword .host) (by rw [render.eq_def statement]; simp [Lexeme.spelling,
      Keyword.spelling])
      trivial ((breaks_cons (by decide) _).parts _) hname.space
  | .ret _ x =>
    have hx := (render_solid false depth x _ hn.2 fun m hm => hv m (by simp [preorder, hm])).spells
    exact .of_token (l := .keyword .ret) (by rw [render.eq_def statement]; simp [Lexeme.spelling,
      Keyword.spelling])
      trivial ((breaks_cons (by decide) _).parts _) hx.space

theorem renderAll_solid (statement : Bool) (depth : Nat) (ns : List Node) (level : Level)
    (hn : ShapedAll level ns) (hv : LegibleAll ns) :
    SolidAll (renderAll statement depth ns) (lexemesAll statement ns) := by
  match ns with
  | [] => trivial
  | n :: ns =>
    exact ⟨render_solid statement depth n level hn.1 fun m hm => hv m (by simp [preorderAll, hm]),
      renderAll_solid statement depth ns level hn.2 fun m hm => hv m (by simp [preorderAll, hm])⟩

theorem renderElements_solid (depth : Nat) (ns : List Node) (hn : ShapedAll .operand ns)
    (hv : LegibleAll ns) : SolidAll (renderElements depth ns) (elementLexemes ns) := by
  match ns with
  | [] => trivial
  | n :: ns =>
    have hn' := render_solid false depth n _ hn.1 fun m hm => hv m (by simp [preorderAll, hm])
    refine ⟨?_, renderElements_solid depth ns hn.2 fun m hm => hv m (by simp [preorderAll, hm])⟩
    split
    · exact .of_token (l := .mark .leftParen) (r := (n.render false depth).toList ++ [')'])
        (by simp [Lexeme.spelling, Mark.char]) trivial trivial
        (hn'.spells.append (.mark .rightParen .nil) (breaks_cons (by decide) _))
    · exact hn'

end

end Node

end RealScript
