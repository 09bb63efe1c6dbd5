import RealScript.Proofs.Tree.Parsed
import RealScript.Proofs.Tree.Reading

/-! # Printed programs

A printed program is read back if and only if no header in it runs on into its body and no sequence
in it starts with a sequence. A header that runs on makes a call of a name that was none, so the
tokens have more names in front of parentheses than the program accounts for.
-/

namespace RealScript

variable {level : Level} {ns : List Node}

/-! ## Names in front of parentheses -/

def Lexeme.isIdentifier : Lexeme → Bool
  | .identifier _ => true
  | _ => false

def meetings : List Lexeme → Nat
  | [] => 0
  | l :: ls => (if l.isIdentifier && leadsParen ls then 1 else 0) + meetings ls

theorem meetings_eq (l : Lexeme) (ls : List Lexeme) :
    meetings (l :: ls) = (if l.isIdentifier && leadsParen ls then 1 else 0) + meetings ls := rfl

def endsName (ls : List Lexeme) : Bool := ls.getLast?.any Lexeme.isIdentifier

theorem leadsParen_append (ls ms : List Lexeme) :
    leadsParen (ls ++ ms) = if ls = [] then leadsParen ms else leadsParen ls := by
  cases ls with
  | nil => rfl
  | cons l ls =>
    rw [if_neg (List.cons_ne_nil _ _)]
    cases l with
    | mark m => cases m <;> rfl
    | _ => rfl

theorem meetings_append (ls ms : List Lexeme) : meetings
    (ls ++ ms) = meetings ls + (if endsName ls && leadsParen ms then 1 else 0) + meetings ms := by
  induction ls with
  | nil => simp [meetings, endsName]
  | cons l ls ih =>
    cases ls with
    | nil => simp [meetings, endsName, leadsParen]
    | cons l' ls =>
      have hends : endsName (l :: l' :: ls) = endsName (l' :: ls) := by
        simp [endsName, List.getLast?_cons_cons]
      have hleads : leadsParen (l' :: ls ++ ms) = leadsParen (l' :: ls) := by
        rw [leadsParen_append, if_neg (List.cons_ne_nil _ _)]
      calc meetings (l :: (l' :: ls ++ ms))
          = (if l.isIdentifier && leadsParen (l' :: ls) then 1 else 0) + meetings
            (l' :: ls ++ ms) := by
            rw [meetings_eq, hleads]
        _ = meetings (l :: l' :: ls) + (if endsName (l :: l' :: ls) && leadsParen ms then 1 else 0)
          + meetings ms := by rw [ih, hends, meetings_eq l]; omega

theorem meet_eq_meetings (ts : List Token) : meet ts [] = meetings (ts.map Token.lexeme) := by
  induction ts with
  | nil => rfl
  | cons t ts ih =>
    have hname : t.kind = .identifier ↔ t.lexeme.isIdentifier = true := by
      unfold Token.kind
      cases t.lexeme <;> simp [Lexeme.kind, Lexeme.isIdentifier]
    have hparen : ts.head?.map Token.kind = some (.mark .leftParen) ↔
      leadsParen (ts.map Token.lexeme) = true := by
      cases ts with
      | nil => simp [leadsParen]
      | cons u ts =>
        rw [List.head?_cons, Option.map_some, List.map_cons, Token.kind]
        cases u.lexeme with
        | mark m => cases m <;> simp [Lexeme.kind, leadsParen]
        | _ => simp [Lexeme.kind, leadsParen]
    simp only [meet, ih, List.append_nil, hname, hparen, List.map_cons, meetings_eq,
      Bool.and_eq_true]

theorem meetings_append_cons (ls ms : List Lexeme) {l : Lexeme} (h : leadsParen [l] = false)
    (hl : l.isIdentifier = false) : meetings (ls ++ l :: ms) = meetings ls + meetings ms := by
  have hleads : leadsParen (l :: ms) = false := by
    rw [← List.singleton_append, leadsParen_append, if_neg (List.cons_ne_nil _ _), h]
  simp [meetings_append, meetings, hleads, hl]

theorem meetings_cons (ls : List Lexeme) {l : Lexeme} (hl : l.isIdentifier = false) :
    meetings (l :: ls) = meetings ls := by
  simp [meetings, hl]

theorem meetings_further (xs : List (List Lexeme)) :
    meetings (Node.furtherLexemes xs) = (xs.map meetings).sum := by
  induction xs with
  | nil => rfl
  | cons x xs ih =>
    have hstart : leadsParen (Node.furtherLexemes xs) = false := by cases xs <;> rfl
    rw [Node.furtherLexemes, meetings_cons _ rfl, meetings_append, ih, hstart]
    simp

theorem meetings_commas (xs : List (List Lexeme)) :
    meetings (Node.commaLexemes xs) = (xs.map meetings).sum := by
  cases xs with
  | nil => rfl
  | cons x xs =>
    have hstart : leadsParen (Node.furtherLexemes xs) = false := by cases xs <;> rfl
    rw [Node.commaLexemes, meetings_append, meetings_further, hstart]
    simp

theorem leadsParen_lines {xs : List (List Lexeme)} (h : [] ∉ xs) (ms : List Lexeme)
    (hms : leadsParen ms = false) :
    leadsParen (Node.lineLexemes xs ++ ms) = xs.head?.any leadsParen := by
  cases xs with
  | nil => exact hms
  | cons x xs =>
    have hx : x ≠ [] := fun hx => h (hx ▸ List.mem_cons_self)
    rw [Node.lineLexemes, List.append_assoc, leadsParen_append, if_neg hx]
    rfl

theorem meetings_lines {xs : List (List Lexeme)} (h : [] ∉ xs) :
    meetings (Node.lineLexemes xs) = (xs.map meetings).sum := by
  induction xs with
  | nil => rfl
  | cons x xs ih =>
    have hxs : [] ∉ xs := fun hx => h (List.mem_cons_of_mem x hx)
    have hstart := leadsParen_lines hxs [] rfl
    rw [List.append_nil] at hstart
    rw [Node.lineLexemes, meetings_append, List.map_cons, List.sum_cons, ← ih hxs]
    cases hparen : xs.head?.any leadsParen with
    | true => simp [meetings_eq (.mark .semicolon), leadsParen, Lexeme.isIdentifier]
    | false => simp [hstart, hparen]

namespace Node

def spillCount (n : Node) : Nat := n.preorder.countP spills

def spillCountAll (ns : List Node) : Nat := (preorderAll ns).countP spills

theorem countP_spills_cons (n : Node) (ns : List Node) :
    (n :: ns).countP spills = ns.countP spills + n.spills.toNat := by
  rw [List.countP_cons]
  cases n.spills <;> rfl

theorem spillCountAll_cons (n : Node) (ns : List Node) :
    spillCountAll (n :: ns) = n.spillCount + spillCountAll ns := by
  simp [spillCountAll, spillCount, preorderAll]

theorem lexemes_ne_nil {n : Node} (hn : n.Shaped level) : n.lexemes true ≠ [] := by
  obtain ⟨l, ls, hl, -⟩ := head_statement hn
  rw [hl]
  exact List.cons_ne_nil l ls

theorem nil_not_mem_lexemesAll (hns : ShapedAll level ns) : [] ∉ lexemesAll true ns := by
  induction ns with
  | nil => exact List.not_mem_nil
  | cons n ns ih =>
    rw [lexemesAll, List.mem_cons, not_or]
    exact ⟨(lexemes_ne_nil hns.1).symm, ih hns.2⟩

theorem endsName_lexemes (n : Node) (hn : n.Shaped .operand) :
    endsName (n.lexemes false) = n.endsInName := by
  have hconcat (ls : List Lexeme) (l : Lexeme) (hl : l.isIdentifier = false) :
      endsName (ls ++ [l]) = false := by simp [endsName, hl]
  match n with
  | .number _ _ | .ident _ _ => rfl
  | .unary _ _ x =>
    obtain ⟨l, ls, hl, -⟩ := head_operand hn.2
    have ih := endsName_lexemes x hn.2
    rw [lexemes, endsInName, ← ih, hl, endsName, List.getLast?_cons_cons, ← endsName]
  | .binary _ _ _ _ =>
    rw [lexemes_group _ _ _ _ (.inl rfl), ← List.cons_append]
    exact hconcat _ _ rfl
  | .call _ false _ _ =>
    rw [lexemes_call, ← List.cons_append, ← List.cons_append]
    exact hconcat _ _ rfl
  | .call _ true _ _ =>
    rw [lexemes_builtin, ← List.cons_append, ← List.cons_append, ← List.cons_append]
    exact hconcat _ _ rfl
  | .collection _ false _ =>
    rw [lexemes_list, ← List.cons_append]
    exact hconcat _ _ rfl
  | .collection _ true _ =>
    rw [lexemes_sequence, ← List.cons_append]
    exact hconcat _ _ rfl
  | .funcLit _ _ _ =>
    rw [lexemes, ← List.cons_append, ← List.cons_append, ← List.append_assoc]
    exact hconcat _ _ rfl
  | .conditional _ _ _ none | .conditional _ _ _ (some _) | .whileLoop _ _ _ | .ret _ _
  | .forLoop _ _ _ _ none _ | .forLoop _ _ _ _ (some _) _ => exact absurd rfl hn.1
  | .funcDef _ _ _ _ | .hostDecl _ _ _ => cases hn.1

theorem meetings_block (hns : ShapedAll level ns)
    (hcount : ((lexemesAll true ns).map meetings).sum = openingsAll ns + spillCountAll ns)
    {ms : List Lexeme} (hms : leadsParen ms = false) :
    meetings (lineLexemes (lexemesAll true ns) ++ ms) =
      openingsAll ns + spillCountAll ns + meetings ms := by
  rw [meetings_append, hms, meetings_lines (nil_not_mem_lexemesAll hns), hcount]
  simp

theorem meetings_header {c : Node} (hc : c.Shaped .operand)
    (hns : ShapedAll .body ns) (hcount : meetings (c.lexemes false) = c.openings + c.spillCount)
    (hcounts : ((lexemesAll true ns).map meetings).sum = openingsAll ns + spillCountAll ns)
    {ms : List Lexeme} (hms : leadsParen ms = false) :
    meetings (c.lexemes false ++ (lineLexemes (lexemesAll true ns) ++ ms)) =
      c.openings + c.spillCount +
        (c.endsInName && ns.head?.any (startsInParen true)).toNat +
        (openingsAll ns + spillCountAll ns) + meetings ms := by
  rw [meetings_append, hcount, endsName_lexemes c hc,
    leadsParen_lines (nil_not_mem_lexemesAll hns) ms hms, head_lexemesAll hns,
    meetings_block hns hcounts hms]
  cases c.endsInName && ns.head?.any (startsInParen true) <;>
    simp only [Bool.false_eq_true, if_false, if_true, Bool.toNat_false, Bool.toNat_true] <;> omega

theorem meetings_params (ps : List String) (ms : List Lexeme) :
    meetings (paramLexemes ps ++ ms) = meetings ms := by
  have hnames : ((ps.map fun x => [Lexeme.identifier x]).map meetings).sum = 0 := by
    induction ps with
    | nil => rfl
    | cons p ps ih => simpa [meetings, leadsParen] using ih
  rw [paramLexemes, List.cons_append, List.append_assoc, meetings_cons _ rfl, List.singleton_append,
    meetings_append_cons _ _ rfl rfl, meetings_commas, hnames, Nat.zero_add]

section

attribute [local simp] openings spillCount spillCountAll preorder spills meetings

mutual

theorem meetings_lexemes (statement : Bool) (n : Node) (level : Level) (hn : n.Shaped level) :
    meetings (n.lexemes statement) = n.openings + n.spillCount := by
  match n with
  | .number _ _ | .ident _ _ => simp [lexemes, leadsParen]
  | .unary _ _ x =>
    have hx := meetings_lexemes false x _ hn.2
    rw [lexemes, operatorLexeme, meetings_cons _ rfl, hx]
    simp
  | .binary pos op l r =>
    have hl := meetings_lexemes false l _ hn.2.1
    have hr := meetings_lexemes false r _ hn.2.2
    have hbody : meetings (l.lexemes false ++ operatorLexeme op :: r.lexemes false) =
        (Node.binary pos op l r).openings + (Node.binary pos op l r).spillCount := by
      rw [operatorLexeme, meetings_append_cons _ _ rfl rfl, hl, hr]
      simp
      omega
    rw [lexemes]
    split
    · exact hbody
    · rw [meetings_cons _ rfl, meetings_append_cons _ _ rfl rfl, hbody]
      rfl
  | .call _ true _ ns =>
    rw [lexemes_builtin, meetings_cons _ rfl, meetings_cons _ rfl, meetings_cons _ rfl,
      meetings_append_cons _ _ rfl rfl, meetings_further, meetings_lexemesAll false ns _ hn.2]
    simp
  | .call _ false _ ns =>
    rw [lexemes_call, meetings_eq (.identifier _), meetings_cons _ rfl,
      meetings_append_cons _ _ rfl rfl,
      meetings_commas, meetings_lexemesAll false ns _ hn.2]
    simp [Lexeme.isIdentifier, leadsParen]
    omega
  | .collection _ true ns =>
    rw [lexemes_sequence, meetings_cons _ rfl, meetings_append_cons _ _ rfl rfl, meetings_commas,
      meetings_elementLexemes ns hn.2]
    simp
  | .collection _ false ns =>
    rw [lexemes_list, meetings_cons _ rfl, meetings_append_cons _ _ rfl rfl, meetings_commas,
      meetings_elementLexemes ns hn.2]
    simp
  | .conditional _ c body none =>
    have hc := meetings_lexemes false c _ hn.2.1
    have hbody := meetings_lexemesAll true body _ hn.2.2
    rw [lexemes, meetings_cons _ rfl, meetings_header hn.2.1 hn.2.2 hc hbody rfl]
    simp [countP_spills_cons, leadsParen]
    omega
  | .conditional _ c body (some other) =>
    have hc := meetings_lexemes false c _ hn.2.1
    have hbody := meetings_lexemesAll true body _ hn.2.2.1
    have hother := meetings_lexemesAll true other _ hn.2.2.2
    rw [lexemes, meetings_cons _ rfl, meetings_header hn.2.1 hn.2.2.1 hc hbody rfl,
      meetings_cons _ rfl,
      meetings_block hn.2.2.2 hother rfl]
    simp [countP_spills_cons, leadsParen]
    omega
  | .whileLoop _ c body =>
    have hc := meetings_lexemes false c _ hn.2.1
    have hbody := meetings_lexemesAll true body _ hn.2.2
    rw [lexemes, meetings_cons _ rfl, meetings_header hn.2.1 hn.2.2 hc hbody rfl]
    simp [countP_spills_cons, leadsParen]
    omega
  | .forLoop _ _ start stop none body =>
    have hstart := meetings_lexemes false start _ hn.2.2.1
    have hstop := meetings_lexemes false stop _ hn.2.2.2.1
    have hbody := meetings_lexemesAll true body _ hn.2.2.2.2
    rw [lexemes, meetings_cons _ rfl, meetings_eq (.identifier _), operatorLexeme,
      meetings_cons _ rfl,
      meetings_append_cons _ _ rfl rfl, hstart,
        meetings_header hn.2.2.2.1 hn.2.2.2.2 hstop hbody rfl]
    simp [countP_spills_cons, leadsParen]
    omega
  | .forLoop _ _ start stop (some step) body =>
    have hstart := meetings_lexemes false start _ hn.2.2.1
    have hstop := meetings_lexemes false stop _ hn.2.2.2.1
    have hstep := meetings_lexemes false step _ hn.2.2.2.2.1
    have hbody := meetings_lexemesAll true body _ hn.2.2.2.2.2
    rw [lexemes, meetings_cons _ rfl, meetings_eq (.identifier _), operatorLexeme,
      meetings_cons _ rfl,
      meetings_append_cons _ _ rfl rfl, hstart, meetings_append_cons _ _ rfl rfl, hstop,
      meetings_header hn.2.2.2.2.1 hn.2.2.2.2.2 hstep hbody rfl]
    simp [countP_spills_cons, leadsParen]
    omega
  | .funcLit _ params body =>
    have hbody := meetings_lexemesAll true body _ hn.2
    rw [lexemes, meetings_cons _ rfl, meetings_params, meetings_cons _ rfl,
      meetings_block hn.2 hbody rfl]
    simp [leadsParen]
  | .funcDef _ name params body =>
    have hbody := meetings_lexemesAll true body _ hn.2.2.2
    have hparen (ms : List Lexeme) : leadsParen (paramLexemes params ++ ms) = true := rfl
    rw [lexemes, meetings_cons _ rfl, meetings_eq (.identifier _), hparen, meetings_params,
      meetings_cons _ rfl, meetings_block hn.2.2.2 hbody rfl]
    simp [Lexeme.isIdentifier]
    omega
  | .hostDecl _ name params =>
    have hparams := meetings_params params []
    rw [List.append_nil] at hparams
    have hparen : leadsParen (paramLexemes params) = true := rfl
    rw [lexemes, meetings_cons _ rfl, meetings_eq (.identifier _), hparen, hparams]
    simp [Lexeme.isIdentifier]
  | .ret _ x =>
    rw [lexemes, meetings_cons _ rfl, meetings_lexemes false x _ hn.2]
    simp

theorem meetings_lexemesAll (statement : Bool) (ns : List Node) (level : Level)
    (hn : ShapedAll level ns) :
    ((lexemesAll statement ns).map meetings).sum = openingsAll ns + spillCountAll ns := by
  match ns with
  | [] => rfl
  | n :: ns =>
    rw [lexemesAll, List.map_cons, List.sum_cons, meetings_lexemes statement n level hn.1,
      meetings_lexemesAll statement ns level hn.2, openingsAll, spillCountAll_cons]
    omega

theorem meetings_elementLexemes (ns : List Node) (hn : ShapedAll .operand ns) :
    ((elementLexemes ns).map meetings).sum = openingsAll ns + spillCountAll ns := by
  match ns with
  | [] => rfl
  | n :: ns =>
    have hfirst := meetings_lexemes false n _ hn.1
    have hparen : meetings (if n.isUnary then .mark .leftParen :: (n.lexemes false ++
      [.mark .rightParen])
        else n.lexemes false) = n.openings + n.spillCount := by
      split
      · rw [meetings_cons _ rfl, meetings_append_cons _ _ rfl rfl, hfirst]
        rfl
      · exact hfirst
    rw [elementLexemes, List.map_cons, List.sum_cons, hparen,
      meetings_elementLexemes ns hn.2, openingsAll,
      spillCountAll_cons]
    omega

end

end

/-! ## Trees up to positions -/

theorem isUnary_unplaced (n : Node) : n.unplaced.isUnary = n.isUnary := by
  cases n with
  | conditional _ _ _ other => cases other <;> rfl
  | forLoop _ _ _ _ step => cases step <;> rfl
  | _ => rfl

mutual

theorem openings_unplaced (n : Node) : n.unplaced.openings = n.openings := by
  match n with
  | .number _ _ | .ident _ _ | .hostDecl _ _ _ => rfl
  | .unary _ _ x | .ret _ x => simp only [unplaced, openings, openings_unplaced x]
  | .binary _ _ l r => simp only [unplaced, openings, openings_unplaced l, openings_unplaced r]
  | .call _ _ _ ns | .collection _ _ ns | .funcLit _ _ ns | .funcDef _ _ _ ns =>
    simp only [unplaced, openings, openingsAll_unplaced ns]
  | .conditional _ c body none | .whileLoop _ c body =>
    simp only [unplaced, openings, openings_unplaced c, openingsAll_unplaced body]
  | .conditional _ c body (some other) =>
    simp only [unplaced, openings, openings_unplaced c, openingsAll_unplaced body,
      openingsAll_unplaced other]
  | .forLoop _ _ start stop none body =>
    simp only [unplaced, openings, openings_unplaced start, openings_unplaced stop,
      openingsAll_unplaced body]
  | .forLoop _ _ start stop (some step) body =>
    simp only [unplaced, openings, openings_unplaced start, openings_unplaced stop,
      openings_unplaced step, openingsAll_unplaced body]

theorem openingsAll_unplaced (ns : List Node) : openingsAll (unplacedAll ns) = openingsAll ns := by
  match ns with
  | [] => rfl
  | n :: ns => simp only [unplacedAll, openingsAll, openings_unplaced n, openingsAll_unplaced ns]

end

mutual

theorem render_unplaced (statement : Bool) (depth : Nat) (n : Node) :
    n.unplaced.render statement depth = n.render statement depth := by
  rw [render.eq_def statement depth, render.eq_def statement depth n]
  match n with
  | .number _ _ | .ident _ _ | .hostDecl _ _ _ => rfl
  | .unary _ _ x | .ret _ x => simp only [unplaced, render_unplaced false depth x]
  | .binary _ _ l r =>
    simp only [unplaced, render_unplaced false depth l, render_unplaced false depth r]
  | .call _ _ _ ns => simp only [unplaced, renderAll_unplaced false depth ns]
  | .collection _ _ ns => simp only [unplaced, renderElements_unplaced depth ns]
  | .funcLit _ _ ns | .funcDef _ _ _ ns =>
    simp only [unplaced, renderAll_unplaced true (depth + 1) ns]
  | .conditional _ c body none | .whileLoop _ c body =>
    simp only [unplaced, render_unplaced false depth c, renderAll_unplaced true (depth + 1) body]
  | .conditional _ c body (some other) =>
    simp only [unplaced, render_unplaced false depth c, renderAll_unplaced true (depth + 1) body,
      renderAll_unplaced true (depth + 1) other]
  | .forLoop _ _ start stop none body =>
    simp only [unplaced, render_unplaced false depth start, render_unplaced false depth stop,
      renderAll_unplaced true (depth + 1) body]
  | .forLoop _ _ start stop (some step) body =>
    simp only [unplaced, render_unplaced false depth start, render_unplaced false depth stop,
      render_unplaced false depth step, renderAll_unplaced true (depth + 1) body]

theorem renderAll_unplaced (statement : Bool) (depth : Nat) (ns : List Node) :
    renderAll statement depth (unplacedAll ns) = renderAll statement depth ns := by
  match ns with
  | [] => rfl
  | n :: ns =>
    simp only [unplacedAll, renderAll, render_unplaced statement depth n,
      renderAll_unplaced statement depth ns]

theorem renderElements_unplaced (depth : Nat) (ns : List Node) :
    renderElements depth (unplacedAll ns) = renderElements depth ns := by
  match ns with
  | [] => rfl
  | n :: ns =>
    simp only [unplacedAll, renderElements, render_unplaced false depth n, isUnary_unplaced n,
      renderElements_unplaced depth ns]

end

end Node

namespace Program

variable {src : String} {p : Program}

section

variable (hp : Node.ShapedAll .top p) (hv : Node.LegibleAll p)

include hp hv

theorem scan_render : ∃ ts e, Scan.ofCursor (.ofString p.render) = { tokens := ts ++ [e] } ∧
      ts.map Token.lexeme = Parse.lineTokens p ∧ e.lexeme = .endOfInput := by
  have hspells := Node.spells_lines 0 (Node.renderAll_solid true 0 p _ hp hv) Spells.nil
  rw [List.append_nil, List.append_nil] at hspells
  obtain ⟨ts, e, hscan, hts, he⟩ := hspells.scan (Cursor.ofString p.render).pos
  refine ⟨ts, e, hscan, hts, ?_⟩
  unfold Token.kind at he
  cases hl : e.lexeme <;> simp_all [Lexeme.kind]

theorem parse_render_of_calm (hc : Node.CalmAll p) :
    if Node.singleAll p then ∃ q, parse p.render = .ok q ∧ Node.unplacedAll q = Node.unplacedAll p
    else ∃ d, parse p.render = .error d := by
  obtain ⟨ts, e, hscan, hts, he⟩ := scan_render hp hv
  have hrun : parse p.render = (Parse.ampleProgram (Stream.of e ts)).map Prod.fst := by
    rw [parse, parseCursor, hscan, ofScan_of_end he]
  have hreads := Parse.program_reads hp hc he hts
  rw [hrun]
  cases hs : Node.singleAll p with
  | true =>
    rw [hs] at hreads
    obtain ⟨q, us, hq, -, hback⟩ := hreads
    exact ⟨q, by rw [hq]; rfl, hback⟩
  | false =>
    rw [hs] at hreads
    obtain ⟨d, hd⟩ := hreads
    exact ⟨d, by rw [hd]; rfl⟩

theorem calm_of_parse_render
    {q : Program} (hq : parse p.render = .ok q) (hback : Node.unplacedAll q = Node.unplacedAll p) :
    Node.CalmAll p := by
  obtain ⟨ts, e, hscan, hts, he⟩ := scan_render hp hv
  have hscanned := Scan.scanned_run ((Cursor.ofString p.render).rest.length + 1)
    (.ofString p.render)
  rw [← Scan.ofCursor, hscan] at hscanned
  rw [parse, parseCursor, hscan] at hq
  have hpairs : meet ts [] = Node.openingsAll q :=
    (derived_of_ofScan he (fun t ht => (hscanned.inner t ht).2) hq).counts
  have hopenings : Node.openingsAll q = Node.openingsAll p := by
    rw [← Node.openingsAll_unplaced q, hback, Node.openingsAll_unplaced]
  have hcount : meetings (Parse.lineTokens p ++ []) = Node.openingsAll p + Node.spillCountAll p :=
    Node.meetings_block hp (Node.meetings_lexemesAll true p _ hp) rfl
  rw [meet_eq_meetings, hts, ← List.append_nil (Parse.lineTokens p), hcount] at hpairs
  have hnone : Node.spillCountAll p = 0 := by omega
  intro n hn
  simpa using List.countP_eq_zero.mp hnone n hn

end

/-- A program that is printed is read back, up to positions, and printed the same again, if and only
if no header in it runs on into its body and no sequence in it starts with a sequence. -/
theorem printed_reparses_iff (h : parse src = .ok p) (hv : Node.LegibleAll p) :
    (∃ q, parse p.render = .ok q ∧ Node.unplacedAll q = Node.unplacedAll p ∧ q.render = p.render) ↔
      ∀ n ∈ Node.preorderAll p, n.spills = false ∧ n.doubled = false := by
  have hp := shaped_of_parse h
  have hsingle : Node.singleAll p = true ↔ ∀ n ∈ Node.preorderAll p, n.doubled = false := by
    simp [Node.singleAll]
  constructor
  · rintro ⟨q, hq, hback, -⟩ n hn
    have hc := calm_of_parse_render hp hv hq hback
    refine ⟨hc n hn, hsingle.mp ?_ n hn⟩
    have hread := parse_render_of_calm hp hv hc
    cases hs : Node.singleAll p with
    | true => rfl
    | false =>
      rw [hs] at hread
      obtain ⟨d, hd⟩ := hread
      rw [hq] at hd
      cases hd
  · intro hn
    have hread := parse_render_of_calm hp hv fun n hmem => (hn n hmem).1
    rw [if_pos (hsingle.mpr fun n hmem => (hn n hmem).2)] at hread
    obtain ⟨q, hq, hback⟩ := hread
    refine ⟨q, hq, hback, ?_⟩
    rw [render, ← Node.renderAll_unplaced, hback, Node.renderAll_unplaced, ← render]

/-- A name as a condition runs on into a statement in parentheses below it, which becomes the
arguments of a call, and a sequence that starts with a sequence is not read at all. -/
theorem printed_runs_on : (∃ p q, parse "if g; (x + y) done" = .ok p ∧ parse p.render = .ok q ∧
      Node.unplacedAll q ≠ Node.unplacedAll p ∧ q.render ≠ p.render) ∧
    ∃ p d, parse "|(|x|)|" = .ok p ∧ parse p.render = .error d := by
  constructor
  · let p : Program := [.conditional ⟨1, 1⟩ (.ident ⟨1, 4⟩ "g")
      [.binary ⟨1, 10⟩ "+" (.ident ⟨1, 8⟩ "x") (.ident ⟨1, 12⟩ "y")] none]
    let q : Program := [.conditional ⟨1, 1⟩ (.call ⟨1, 4⟩ false "g"
      [.binary ⟨2, 6⟩ "+" (.ident ⟨2, 4⟩ "x") (.ident ⟨2, 8⟩ "y")]) [] none]
    have hprinted : p.render = "if g\n  (x + y)\ndone\n" := by decide +kernel
    have hq : parse "if g\n  (x + y)\ndone\n" = .ok q := by cbv
    have hdiffer : Node.unplacedAll q ≠ Node.unplacedAll p := by
      simp [p, q, Node.unplacedAll, Node.unplaced]
    exact ⟨p, q, by cbv, hprinted ▸ hq, hdiffer, by decide +kernel⟩
  · let p : Program := [.collection ⟨1, 1⟩ true [.collection ⟨1, 3⟩ true [.ident ⟨1, 4⟩ "x"]]]
    have hprinted : p.render = "||x||\n" := by decide +kernel
    have hd : parse "||x||\n" = .error ⟨⟨1, 2⟩, .emptyCollection⟩ := by cbv
    exact ⟨p, _, by cbv, hprinted ▸ hd⟩

/-- A loop whose header ends in a name, with a statement in parentheses that is not the first in its
body. -/
theorem printed_reparses_iff_loop :
    ∃ p, parse "for i = 1, n, x; y = |2.5, (not x)|; (x + y); f(0.1) done" = .ok p ∧
    Node.LegibleAll p ∧
      ∃ q, parse p.render = .ok q ∧ Node.unplacedAll q = Node.unplacedAll p ∧ q.render =
      p.render := by
  have hall : (parse "for i = 1, n, x; y = |2.5, (not x)|; (x + y); f(0.1) done").toOption.any
      (fun p => decide (Node.LegibleAll p ∧
        ∀ n ∈ Node.preorderAll p, n.spills = false ∧ n.doubled = false)) = true := by decide +kernel
  obtain ⟨p, hp, hall⟩ := (Option.any_eq_true _ _).mp hall
  obtain ⟨hv, hn⟩ := of_decide_eq_true hall
  have hp : parse "for i = 1, n, x; y = |2.5, (not x)|; (x + y); f(0.1) done" = .ok p := by
    cases hq : parse "for i = 1, n, x; y = |2.5, (not x)|; (x + y); f(0.1) done" with
    | error d => rw [hq] at hp; cases hp
    | ok q => rw [hq] at hp; exact congrArg _ (Option.some.inj hp)
  exact ⟨p, hp, hv, (printed_reparses_iff hp hv).mpr hn⟩

end Program

end RealScript
