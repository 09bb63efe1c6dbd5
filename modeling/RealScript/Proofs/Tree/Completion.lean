import RealScript.Proofs.Tree.Prefixes

/-! # Completing a program

Every parser can be given tokens at the end of the input, and has the three outcomes of `Tracks` on
the tokens in front of it. So whatever fails only because the input ends can be completed.
-/

namespace RealScript.Parse

variable {t : Token} {closer : Mark}

open Calls

def Anything (_ : TokenKind) : Prop := True

def Stops (k : TokenKind) : Prop := k ≠ .mark .leftParen ∧ k ≠ .operator

def Closing (closers : List TokenKind) : Prop := ∀ k ∈ closers, Stops k ∧ k ≠ .endOfInput

def someName : Lexeme := .identifier "i"

theorem spelled_someName : someName.Spelled := ⟨⟨'i', [], by decide, by decide, by simp⟩, rfl⟩

def endAt (p : Position) : Token := ⟨.endOfInput, p⟩

theorem lexeme_of_kind (h : t.kind = .endOfInput) : t.lexeme = .endOfInput := by
  obtain ⟨l, p⟩ := t
  cases l with
  | endOfInput => rfl
  | _ => cases h

theorem binaryOperator?_of_kind (h : t.kind ≠ .operator) : binaryOperator? t = none := by
  obtain ⟨l, p⟩ := t
  cases l with
  | operator op => exact absurd rfl h
  | _ => rfl

/-! ## What can be filled in -/

section Fills

theorem fills_expect {l : Lexeme} {kind : TokenKind} (place : Place) (hl : l.kind = kind) :
    Fills Anything [l] (expect kind place) := by
  apply Fills.current
  intro t ht
  have hk : t.kind = kind := by rw [← hl, ← ht]; rfl
  rw [if_pos hk]
  exact .advance .pure

theorem fills_expectName (place : Place) : Fills Anything [someName] (expectName place) :=
  (fills_expect place rfl).bind (fun _ => .pure) fun _ h => h

theorem fills_expectAssign : Fills Anything [.operator ⟨"=", .assign, 2⟩] expectAssign := by
  apply Fills.current
  intro t ht
  simp only [ht]
  have h := Fills.advance (F := Anything) (g := pure) (l := .operator ⟨"=", .assign, 2⟩)
    (Fills.pure (a := ()))
  rwa [bind_pure] at h

theorem fills_names : Fills (· ≠ .mark .comma) [someName] ample.names := by
  apply Fills.congr ?_ ample_names
  apply (fills_expectName _).bind (v := []) ?_ fun _ _ => trivial
  intro name
  apply Fills.ahead
  intro u hu
  rw [if_neg hu]
  exact .pure

theorem fills_primary : Fills Stops [someName] ample.primary := by
  apply Fills.congr ?_ ample_primary
  apply Fills.current
  intro t ht
  simp only [ht, someName]
  apply Fills.advance
  apply Fills.ahead
  intro u hu
  rw [if_neg hu.1]
  exact .pure

theorem fills_unary : Fills Stops [someName] ample.unary := by
  apply Fills.congr ?_ ample_unary
  apply Fills.current
  intro t ht
  simp only [ht, someName]
  exact fills_primary

theorem fills_binary (least : Nat) (lhs : Node) : Fills Stops [] (ample.binary least lhs) := by
  apply Fills.congr ?_ (ample_binary least lhs)
  apply Fills.ahead
  intro t ht
  simp only [binaryOperator?_of_kind ht.2]
  exact .pure

theorem fills_expression : Fills Stops [someName] ample.expression := by
  apply Fills.congr ?_ ample_expression
  exact fills_unary.bind (fills_binary 0) fun _ h => h

theorem fills_statement (nested : Bool) : Fills Stops [someName] (ample.statement nested) := by
  apply Fills.congr ?_ (ample_statement nested)
  apply Fills.current
  intro t ht
  simp only [ht, someName]
  exact fills_expression

theorem fills_block (owner : Token) (closers : List TokenKind) :
    Fills (· ∈ closers) [] (ample.block owner closers) := by
  apply Fills.congr ?_ (ample_block owner closers)
  apply Fills.ahead
  intro t ht
  rw [if_pos (by simpa using ht)]
  exact .pure

theorem fills_arguments : Fills Anything [someName, .mark .rightParen] ample.arguments := by
  apply Fills.congr ?_ ample_arguments
  apply fills_expression.bind (v := [.mark .rightParen]) ?_ ⟨by decide, by decide⟩
  intro arg
  apply Fills.current
  intro t ht
  simp only [ht]
  exact .advance .pure

theorem fills_elements (hcloser : closer = .rightBracket ∨ closer = .pipe) :
    Fills Anything [someName, .mark closer] (ample.elements closer) := by
  apply Fills.congr ?_ (ample_elements closer)
  have hmarks : closer ≠ .leftParen ∧ closer ≠ .comma := by rcases hcloser with rfl | rfl <;> decide
  apply fills_primary.bind (v := [.mark closer]) ?_ ⟨by simpa [Lexeme.kind] using hmarks.1,
    fun h => by cases h⟩
  intro element
  apply Fills.current
  intro t ht
  have hk : t.kind = .mark closer := by rw [Token.kind, ht]; rfl
  rw [if_neg (by simpa [hk] using hmarks.2), if_pos hk]
  exact .advance .pure

theorem fills_doArguments : Fills Anything [.mark .rightParen] ample.doArguments := by
  apply Fills.congr ?_ ample_doArguments
  apply Fills.current
  intro t ht
  simp only [ht]
  exact .advance .pure

theorem fills_params (place : Place) :
    Fills Anything [.mark .leftParen, .mark .rightParen] (ample.params place) := by
  apply (fills_expect place rfl).bind (w := [.mark .leftParen]) (v := [.mark .rightParen])
    ?_ trivial
  intro _
  apply Fills.current
  intro t ht
  have hk : t.kind = .mark .rightParen := by rw [Token.kind, ht]; rfl
  simp only [hk, if_true]
  exact (fills_expect .closeParams rfl).bind (fun _ => .pure) fun _ h => h

theorem fills_function (place : Place) : Fills Anything
    [.mark .leftParen, .mark .rightParen, .mark .leftBrace, .mark .rightBrace]
    (ample.function place) := by
  apply Fills.congr ?_ (ample_function place)
  apply (fills_params place).bind (v := [.mark .leftBrace, .mark .rightBrace]) ?_ trivial
  intro params
  apply (fills_expect .openBody rfl).bind (w := [.mark .leftBrace]) (v := [.mark .rightBrace])
    ?_ trivial
  intro start
  apply (fills_block start _).bind (v := [.mark .rightBrace]) ?_ (by simp [Enters, Lexeme.kind])
  intro body
  exact (fills_expect .closeBody rfl).bind (fun _ => .pure) fun _ h => h

end Fills

/-! ## Outcomes -/

section Outcomes

variable {α β : Type} {n k : Nat} {p : Position} {F G : TokenKind → Prop} {fill : List Lexeme}

theorem Tracks.anywhere {x : Parse α} {e : Token} {ts : List Token} (h : Tracks Anything e k x ts) :
    Tracks F e k x ts := h.mono (fun _ _ => trivial) (Nat.le_refl _)

theorem Tracks.perhaps {x : Parse α} {e : Token} {ts : List Token} (h : Tracks F e k x ts) :
    Tracks F e 0 x ts := h.mono (fun _ h => h) (Nat.zero_le k)

theorem atEnd_expected (h : t.kind ≠ .endOfInput) (kind : TokenKind) (place : Place) :
    (Cause.expected kind place t).atEnd = false := by
  simp [Cause.atEnd, Cause.got?, h]

theorem completes_expect {l : Lexeme} {kind : TokenKind} (place : Place) (hl : l.kind = kind)
    (hspelled : l.Spelled) : Completes n Anything (endAt p) 1 [l] (expect kind place) := by
  apply Completes.of_starves (by simpa using hspelled) (by simp) (fills_expect place hl)
  · apply Starves.current
    have hk : (endAt p).kind ≠ kind := by
      rintro rfl
      cases l with
      | endOfInput => exact hspelled
      | _ => cases hl
    rw [if_neg hk]
    exact .reject rfl
  · intro t ts hts hn
    apply Tracks.current
    split
    · exact .advance (.pure hts.tail)
    · exact .reject (atEnd_expected hts.head ..)

theorem completes_mark (m : Mark) (place : Place) :
    Completes n Anything (endAt p) 1 [.mark m] (expect (.mark m) place) :=
  completes_expect place rfl trivial

theorem completes_keyword (w : Keyword) (place : Place) :
    Completes n Anything (endAt p) 1 [.keyword w] (expect (.keyword w) place) :=
  completes_expect place rfl trivial

theorem completes_expectName (place : Place) :
    Completes n Anything (endAt p) 1 [someName] (expectName place) :=
  (completes_expect place rfl spelled_someName).map rfl

theorem completes_expectAssign :
    Completes n Anything (endAt p) 1 [.operator ⟨"=", .assign, 2⟩] expectAssign := by
  apply Completes.of_starves (by simp [Lexeme.Spelled, Operator.table]) (by simp) fills_expectAssign
  · exact .current (.reject rfl)
  · intro t ts hts hn
    apply Tracks.current
    split
    · have h := Tracks.advance (F := Anything) (e := endAt p) (g := pure) (t := t)
        (Tracks.pure (a := ()) hts.tail)
      rwa [bind_pure] at h
    · apply Tracks.reject
      simp [Cause.atEnd, Cause.got?, hts.head]

theorem completes_behind? [Inhabited α] {c : TokenKind} (hkind : c ≠ .endOfInput)
    {q : Token → Parse α}
    (hq : ∀ t, Completes n G (endAt p) k fill (q t)) :
    Completes n (fun u => u ≠ c ∧ G u) (endAt p) 0 [] (behind? c q) := by
  apply Completes.of_cons (by simp) (fun _ => rfl)
  · apply Fills.ahead
    intro t ht
    rw [if_neg ht.1]
    exact .pure
  · apply Tracks.idle (a := none)
    intro s u us hu hs
    have hk : u.kind ≠ c := by
      rcases hu with hu | hu
      · exact hu.1
      · exact hu ▸ hkind.symm
    apply Gives.current hs
    rw [if_neg hk]
    exact .pure hs
  · intro t ts hts hn
    apply Tracks.current
    split
    · have h := (hq t).map (g := fun a => some a) rfl
      exact (h.after hts (by omega)).mono (fun _ h => h.2) (Nat.zero_le 1)
    · exact .pure hts

theorem starves_names : Starves (endAt p) ample.names := by
  apply Starves.congr ?_ ample_names
  exact .bind (.bind (.current (.reject rfl)))

theorem starves_primary : Starves (endAt p) ample.primary := by
  apply Starves.congr ?_ ample_primary
  exact .current (.reject rfl)

theorem starves_unary : Starves (endAt p) ample.unary := by
  apply Starves.congr ?_ ample_unary
  exact .current starves_primary

theorem starves_expression : Starves (endAt p) ample.expression := by
  apply Starves.congr ?_ ample_expression
  exact .bind starves_unary

theorem starves_statement (nested : Bool) : Starves (endAt p) (ample.statement nested) := by
  apply Starves.congr ?_ (ample_statement nested)
  exact .current starves_expression

theorem starves_elements (closer : Mark) : Starves (endAt p) (ample.elements closer) := by
  apply Starves.congr ?_ (ample_elements closer)
  exact .bind starves_primary

theorem starves_arguments : Starves (endAt p) ample.arguments := by
  apply Starves.congr ?_ ample_arguments
  exact .bind starves_expression

theorem starves_doArguments : Starves (endAt p) ample.doArguments := by
  apply Starves.congr ?_ ample_doArguments
  exact .current (.reject rfl)

theorem starves_function (place : Place) : Starves (endAt p) (ample.function place) := by
  apply Starves.congr ?_ (ample_function place)
  exact .bind (.bind (.current (.reject rfl)))

theorem starves_block (owner : Token) {closers : List TokenKind} (h : Closing closers) :
    Starves (endAt p) (ample.block owner closers) := by
  apply Starves.congr ?_ (ample_block owner closers)
  apply Starves.current
  have hk : ¬ closers.contains (endAt p).kind = true := fun hc =>
    (h _ (List.contains_iff_mem.mp hc)).2 rfl
  rw [if_neg hk]
  exact .reject rfl

structure Whole (n : Nat) (p : Position) : Prop where
  statement (nested : Bool) : Completes n Stops (endAt p) 1 [someName] (ample.statement nested)
  block (owner : Token) (closers : List TokenKind) (h : Closing closers) :
    Completes n (· ∈ closers) (endAt p) 0 [] (ample.block owner closers)
  expression : Completes n Stops (endAt p) 1 [someName] ample.expression
  binary (least : Nat) (lhs : Node) : Completes n Stops (endAt p) 0 [] (ample.binary least lhs)
  unary : Completes n Stops (endAt p) 1 [someName] ample.unary
  arguments : Completes n Anything (endAt p) 1 [someName, .mark .rightParen] ample.arguments
  elements (closer : Mark) (h : closer = .rightBracket ∨ closer = .pipe) :
    Completes n Anything (endAt p) 1 [someName, .mark closer] (ample.elements closer)
  doArguments : Completes n Anything (endAt p) 1 [.mark .rightParen] ample.doArguments
  function (place : Place) : Completes n Anything (endAt p) 1
    [.mark .leftParen, .mark .rightParen, .mark .leftBrace, .mark .rightBrace]
      (ample.function place)
  names : Completes n (· ≠ .mark .comma) (endAt p) 1 [someName] ample.names

namespace Whole

section

variable (ih : Whole n p)

include ih

theorem names_succ : Completes (n + 1) (· ≠ .mark .comma) (endAt p) 1 [someName] ample.names := by
  apply Completes.congr ?_ ample_names
  apply (completes_expectName _).bind rfl (j := 0) (v := []) ?_ fun _ _ => trivial
  intro name
  apply Completes.of_cons (by simp) (by simp)
  · apply Fills.ahead
    intro u hu
    rw [if_neg hu]
    exact .pure
  · apply Tracks.idle (a := [name])
    intro s u us hu hs
    have hk : u.kind ≠ .mark .comma := by
      rcases hu with hu | hu
      · exact hu
      · rw [hu]
        simp
    apply Gives.current hs
    rw [if_neg hk]
    exact .pure hs
  · intro t ts hts hn
    apply Tracks.current
    split
    · have h := ih.names.map (g := fun rest => name :: rest) rfl
      exact (h.after hts (by omega)).perhaps
    · exact .pure hts

theorem params (place : Place) : Completes (n + 1) Anything (endAt p) 1
    [.mark .leftParen, .mark .rightParen] (ample.params place) := by
  apply Completes.mono (k := 2) ?_ (fun _ h => h) (by decide) (by simp) (Nat.le_refl _)
  apply (completes_mark .leftParen place).bind rfl (j := 1) (v := [.mark .rightParen]) ?_ trivial
  intro _
  have hclose (found : List String) : Completes n Anything (endAt p) 1 [.mark .rightParen] (do
      let _ ← expect (.mark .rightParen) .closeParams
      return found) :=
    (completes_mark .rightParen .closeParams).map rfl
  have hnames := ih.names.seq rfl hclose (fun h => by cases h)
  apply Completes.of_starves (by simp [Lexeme.Spelled]) (by simp)
  · apply Fills.current
    intro t ht
    have hk : t.kind = .mark .rightParen := by rw [Token.kind, ht]; rfl
    simp only [hk, if_true]
    exact (hclose []).fills
  · exact .current (.bind starves_names)
  · intro t ts hts hn
    apply Tracks.current
    split
    · exact (hclose []).tracks (t :: ts) hts hn
    · exact (hnames.tracks (t :: ts) hts hn).mono (fun _ h => h) (by decide)

theorem function_succ (place : Place) : Completes (n + 1) Anything (endAt p) 1
    [.mark .leftParen, .mark .rightParen, .mark .leftBrace, .mark .rightBrace]
    (ample.function place) := by
  apply Completes.congr ?_ (ample_function place)
  apply Completes.mono (k := 3) ?_ (fun _ h => h) (by decide) (by simp) (Nat.le_refl _)
  apply (ih.params place).bind rfl (j := 2) (v := [.mark .leftBrace, .mark .rightBrace]) ?_ trivial
  intro params
  apply (completes_mark .leftBrace .openBody).seq rfl (j := 1) (v := [.mark .rightBrace]) ?_ trivial
  intro start
  apply (ih.block start _ (by simp [Closing, Stops])).seq rfl (j := 1) (v := [.mark .rightBrace])
    ?_ (by simp [Enters, Lexeme.kind])
  intro body
  exact (completes_mark .rightBrace .closeBody).map rfl

theorem collection (hcloser : closer = .rightBracket ∨ closer = .pipe)
    (start t : Token) (ts : List Token) (hts : Inner (t :: ts)) (hn : ts.length < n) :
    Tracks Anything (endAt p) 1 (ample.collection start closer) (t :: ts) := by
  apply Tracks.congr_on (y := ample.unfold.collection start closer) ?_ fun s tail hs =>
    ((alike_unfold _).collection start closer s hs.closed
      (by rw [Reads.tok hs]; exact hts.head) (Nat.le_refl _)).1
  have helements := (ih.elements closer hcloser).map (g := fun xs => Node.collection start.pos
    (closer = .pipe) xs) rfl
  have hname : TokenKind.identifier ≠ .mark closer := by simp
  apply Completes.after (n := n) (k := 1) (w := [someName, .mark closer]) ?_ hts hn
  apply Completes.of_starves helements.spelled (by simp)
  · apply Fills.current
    intro u hu
    rw [if_neg (by rw [Token.kind, hu]; exact hname)]
    exact helements.fills
  · apply Starves.current
    rw [if_neg (fun h => by cases h)]
    exact .bind (starves_elements closer)
  · intro u us hus hn
    apply Tracks.current
    split
    · exact .reject_bind rfl
    · exact helements.tracks (u :: us) hus hn

theorem named (t : Token) (name : String) :
    Completes n Stops (endAt p) 0 [] (ample.named t name) := by
  apply Completes.of_cons (by simp) (by simp)
  · apply Fills.ahead
    intro u hu
    rw [if_neg hu.1]
    exact .pure
  · apply Tracks.idle (a := .ident t.pos name)
    intro s u us hu hs
    have hk : u.kind ≠ .mark .leftParen := by
      rcases hu with hu | hu
      · exact hu.1
      · rw [hu]
        simp
    apply Gives.current hs
    rw [if_neg hk]
    exact .pure hs
  · intro u us hus hn
    apply Tracks.current
    split
    · have hargs := ih.arguments.map (g := fun xs => Node.call t.pos false name xs) rfl
      refine Tracks.mono (Completes.after (n := n) (F := Anything) (k := 1)
        (w := [.mark .rightParen]) ?_ hus (by omega)) (fun _ _ => trivial) (Nat.zero_le 1)
      apply Completes.of_starves (by simp [Lexeme.Spelled]) (by simp)
      · apply Fills.current
        intro v hv
        have hk : v.kind = .mark .rightParen := by rw [Token.kind, hv]; rfl
        rw [if_pos hk]
        exact .advance .pure
      · exact .current (.bind starves_arguments)
      · intro v vs hvs hn
        apply Tracks.current
        split
        · exact .advance (.pure hvs.tail)
        · exact hargs.tracks (v :: vs) hvs hn
    · exact .pure hus

theorem doCall (t : Token) : Completes n Anything (endAt p) 2
    [.mark .leftParen, .builtin "read", .mark .rightParen] (ample.doCall t) := by
  apply (completes_mark .leftParen .doCall).seq rfl (j := 1)
    (v := [.builtin "read", .mark .rightParen]) ?_ trivial
  intro _
  have hargs (name : String) := ih.doArguments.map (g := fun xs => Node.call t.pos true name xs) rfl
  apply Completes.of_starves (by simp [Lexeme.Spelled, reservedNames]) (by simp)
  · apply Fills.current
    intro u hu
    simp only [hu]
    exact .advance (hargs "read").fills
  · exact .current (.reject rfl)
  · intro u us hus hn
    apply Tracks.current
    split
    · exact (hargs _).after hus (by omega)
    · exact .reject (by simp [Cause.atEnd, Cause.got?, hus.head])

theorem primary_succ : Completes (n + 1) Stops (endAt p) 1 [someName] ample.primary := by
  apply Completes.of_starves (by simpa using spelled_someName)
    (by simp) fills_primary starves_primary
  intro t ts hts hn
  apply Tracks.congr ?_ ample_primary
  apply Tracks.current
  split
  · exact (ih.named t _).after hts (by omega)
  · exact .advance (.pure hts.tail)
  · have hclose (x : Node) : Completes n Anything (endAt p) 1 [.mark .rightParen] (do
        let _ ← expect (.mark .rightParen) .closeGroup
        return x) :=
      (completes_mark .rightParen .closeGroup).map rfl
    have hgroup := ih.expression.seq rfl hclose ⟨by simp [Lexeme.kind], by simp [Lexeme.kind]⟩
    exact (hgroup.after hts (by omega)).anywhere
  · exact (ih.collection (.inl rfl) t t ts hts (by omega)).anywhere
  · exact (ih.collection (.inr rfl) t t ts hts (by omega)).anywhere
  · exact ((ih.doCall t).after hts (by omega)).anywhere
  · have hfunc := (ih.function .funcParams).map (g := fun f => Node.funcLit t.pos f.1 f.2) rfl
    exact (hfunc.after hts (by omega)).anywhere
  · exact .reject (by simp [Cause.atEnd, Cause.got?, hts.head])

theorem unary_succ : Completes (n + 1) Stops (endAt p) 1 [someName] ample.unary := by
  have hprimary := ih.primary_succ
  apply Completes.of_starves (by simpa using spelled_someName) (by simp) fills_unary starves_unary
  intro t ts hts hn
  apply Tracks.congr ?_ ample_unary
  apply Tracks.current
  split
  · rename_i op _
    split
    · have hunary := ih.unary.map (g := fun x => Node.unary t.pos op.spelling x) rfl
      exact hunary.after hts (by omega)
    · exact hprimary.tracks (t :: ts) hts hn
  · exact hprimary.tracks (t :: ts) hts hn

end

theorem binaryOperator?_of_stops {u : Token} (hu : Stops u.kind ∨ u.kind = .endOfInput) :
    binaryOperator? u = none := by
  apply binaryOperator?_of_kind
  rcases hu with hu | hu
  · exact hu.2
  · rw [hu]
    simp

section

variable (ih : Whole n p)

include ih

theorem combine (t : Token) (op : Operator) (least : Nat) (lhs operand : Node) :
    Completes n Stops (endAt p) 0 [] (ample.combine t op least lhs operand) := by
  have hrest (rhs : Node) := ih.binary least (.binary t.pos op.spelling lhs rhs)
  have hpure := (Completes.pure (a := operand)).seq rfl hrest fun _ h => h
  apply Completes.of_cons (by simp) (by simp)
  · apply Fills.ahead
    intro u hu
    simp only [binaryOperator?_of_stops (.inl hu), Option.any_none, Bool.false_eq_true, if_false]
    exact hpure.fills
  · apply Tracks.idle (a := .binary t.pos op.spelling lhs operand)
    intro s u us hu hs
    apply Gives.current hs
    simp only [binaryOperator?_of_stops hu, Option.any_none, Bool.false_eq_true, if_false]
    apply (Gives.pure hs).bind
    intro s' hs' _
    apply Gives.congr ?_ (ample_binary _ _ s' hs'.closed)
    apply Gives.current hs'
    simp only [binaryOperator?_of_stops hu]
    exact .pure hs'
  · intro u us hus hn
    apply Tracks.current
    dsimp only
    split
    · exact ((ih.binary _ operand).seq rfl hrest fun _ h => h).tracks (u :: us) hus hn
    · exact hpure.tracks (u :: us) hus hn

theorem binary_succ (least : Nat) (lhs : Node) :
    Completes (n + 1) Stops (endAt p) 0 [] (ample.binary least lhs) := by
  apply Completes.congr ?_ (ample_binary least lhs)
  apply Completes.of_cons (by simp) (by simp)
  · apply Fills.ahead
    intro u hu
    simp only [binaryOperator?_of_stops (.inl hu)]
    exact .pure
  · apply Tracks.idle (a := lhs)
    intro s u us hu hs
    apply Gives.current hs
    simp only [binaryOperator?_of_stops hu]
    exact .pure hs
  · intro t ts hts hn
    apply Tracks.current
    split
    · exact .pure hts
    · rename_i op _
      split
      · exact .pure hts
      · have h := ih.unary.seq rfl (ih.combine t op least lhs) fun _ h => h
        exact (h.after hts (by omega)).perhaps

theorem expression_succ : Completes (n + 1) Stops (endAt p) 1 [someName] ample.expression := by
  apply Completes.congr ?_ ample_expression
  exact ih.unary_succ.bind rfl (fun lhs => ih.binary 0 lhs) fun _ h => h

theorem arguments_succ :
    Completes (n + 1) Anything (endAt p) 1 [someName, .mark .rightParen] ample.arguments := by
  apply Completes.congr ?_ ample_arguments
  apply Completes.mono (k := 2) ?_ (fun _ h => h) (by decide) (by simp) (Nat.le_refl _)
  apply ih.expression_succ.bind rfl (j := 1) (v := [.mark .rightParen]) ?_
    ⟨by simp [Lexeme.kind], by simp [Lexeme.kind]⟩
  intro arg
  apply Completes.of_starves (by simp [Lexeme.Spelled]) (by simp)
  · apply Fills.current
    intro t ht
    simp only [ht]
    exact .advance .pure
  · exact .current (.reject rfl)
  · intro t ts hts hn
    apply Tracks.current
    split
    · have h := ih.arguments.map (g := fun rest => arg :: rest) rfl
      exact h.after hts (by omega)
    · exact .advance (.pure hts.tail)
    · exact .reject (by simp [Cause.atEnd, Cause.got?, hts.head])

theorem elements_succ (hcloser : closer = .rightBracket ∨ closer = .pipe) :
    Completes (n + 1) Anything (endAt p) 1 [someName, .mark closer] (ample.elements closer) := by
  have hmarks : closer ≠ .leftParen ∧ closer ≠ .comma := by rcases hcloser with rfl | rfl <;> decide
  apply Completes.congr ?_ (ample_elements closer)
  apply Completes.mono (k := 2) ?_ (fun _ h => h) (by decide) (by simp) (Nat.le_refl _)
  apply ih.primary_succ.bind rfl (j := 1) (v := [.mark closer]) ?_
    ⟨by simpa [Lexeme.kind] using hmarks.1, by simp [Lexeme.kind]⟩
  intro element
  apply Completes.of_starves (by simp [Lexeme.Spelled]) (by simp)
  · apply Fills.current
    intro t ht
    have hk : t.kind = .mark closer := by rw [Token.kind, ht]; rfl
    rw [if_neg (by simpa [hk] using hmarks.2), if_pos hk]
    exact .advance .pure
  · apply Starves.current
    rw [if_neg (fun h => by cases h), if_neg (fun h => by cases h)]
    exact .reject rfl
  · intro t ts hts hn
    apply Tracks.current
    dsimp only
    split
    · have h := (ih.elements closer hcloser).map (g := fun rest => element :: rest) rfl
      exact h.after hts (by omega)
    · split
      · exact .advance (.pure hts.tail)
      · exact .reject (by simp [Cause.atEnd, Cause.got?, hts.head])

theorem doArguments_succ :
    Completes (n + 1) Anything (endAt p) 1 [.mark .rightParen] ample.doArguments := by
  apply Completes.of_starves (by simp [Lexeme.Spelled]) (by simp) fills_doArguments
    starves_doArguments
  intro t ts hts hn
  apply Tracks.congr ?_ ample_doArguments
  apply Tracks.current
  split
  · have hrest (arg : Node) := ih.doArguments.map (g := fun rest => arg :: rest) rfl
    exact (ih.expression.seq rfl hrest ⟨by simp [Lexeme.kind], by simp [Lexeme.kind]⟩).after hts
      (by omega)
  · exact .advance (.pure hts.tail)
  · exact .reject (by simp [Cause.atEnd, Cause.got?, hts.head])

theorem conditional (t : Token) : Completes n Anything (endAt p) 2
    [someName, .keyword .done] (ample.conditional t) := by
  apply ih.expression.seq rfl (j := 1) (v := [.keyword .done]) ?_
    ⟨by simp [Lexeme.kind], by simp [Lexeme.kind]⟩
  intro cond
  apply (ih.block t _ (by simp [Closing, Stops])).seq rfl (j := 1) (v := [.keyword .done]) ?_
    (by simp [Enters, Lexeme.kind])
  intro body
  have helse (stop : Token) := ih.block stop [.keyword .done] (by simp [Closing, Stops])
  apply (completes_behind? (c := .keyword .orElse) (by simp) helse).seq rfl (j := 1)
    (v := [.keyword .done]) ?_ (by simp [Enters, Lexeme.kind])
  intro otherwise
  exact (completes_keyword .done .closeIf).map rfl

theorem whileLoop (t : Token) : Completes n Anything (endAt p) 2
    [someName, .keyword .done] (ample.whileLoop t) := by
  apply ih.expression.seq rfl (j := 1) (v := [.keyword .done]) ?_
    ⟨by simp [Lexeme.kind], by simp [Lexeme.kind]⟩
  intro cond
  apply (ih.block t _ (by simp [Closing, Stops])).seq rfl (j := 1) (v := [.keyword .done]) ?_
    (by simp [Enters, Lexeme.kind])
  intro body
  exact (completes_keyword .done .closeWhile).map rfl

theorem forLoop (t : Token) : Completes n Anything (endAt p) 6
    [someName, .operator ⟨"=", .assign, 2⟩, someName, .mark .comma, someName, .keyword .done]
    (ample.forLoop t) := by
  apply (completes_expectName _).seq rfl (j := 5)
    (v := [.operator ⟨"=", .assign, 2⟩, someName, .mark .comma, someName,
      .keyword .done]) ?_ trivial
  intro var
  apply completes_expectAssign.seq rfl (j := 4)
    (v := [someName, .mark .comma, someName, .keyword .done]) ?_ trivial
  intro _
  apply ih.expression.seq rfl (j := 3) (v := [.mark .comma, someName, .keyword .done]) ?_
    ⟨by simp [Lexeme.kind], by simp [Lexeme.kind]⟩
  intro start
  apply (completes_mark .comma .loopStart).seq rfl (j := 2) (v := [someName, .keyword .done]) ?_
    trivial
  intro _
  apply ih.expression.seq rfl (j := 1) (v := [.keyword .done]) ?_
    ⟨by simp [Lexeme.kind], by simp [Lexeme.kind]⟩
  intro stop
  apply (completes_behind? (c := .mark .comma) (by simp) fun _ => ih.expression).seq rfl (j := 1)
    (v := [.keyword .done]) ?_ (by simp [Enters, Lexeme.kind, Stops])
  intro step
  apply (ih.block t _ (by simp [Closing, Stops])).seq rfl (j := 1) (v := [.keyword .done]) ?_
    (by simp [Enters, Lexeme.kind])
  intro body
  exact (completes_keyword .done .closeFor).map rfl

theorem definition (nested : Bool) (t : Token) : Completes n Stops (endAt p) 1
    [.mark .leftParen, .mark .rightParen, .mark .leftBrace, .mark .rightBrace]
    (ample.definition nested t) := by
  have hliteral := (ih.function .funcParams).seq rfl
    (f := fun f => ample.binary 0 (.funcLit t.pos f.1 f.2))
      (fun f => ih.binary 0 _) fun _ _ => trivial
  apply Completes.of_starves hliteral.spelled (by simp)
  · apply Fills.current
    intro u hu
    simp only [hu]
    exact hliteral.fills
  · exact .current (.bind (starves_function _))
  · intro u us hus hn
    apply Tracks.current
    split
    · rename_i name _
      dsimp only
      split
      · exact .throw rfl fun _ _ _ => rfl
      · have hdef := (ih.function .defParams).map
          (g := fun f => Node.funcDef t.pos name f.1 f.2) rfl
        exact (hdef.after hus (by omega)).anywhere
    · exact hliteral.tracks (u :: us) hus hn

theorem statement_succ (nested : Bool) :
    Completes (n + 1) Stops (endAt p) 1 [someName] (ample.statement nested) := by
  apply Completes.of_starves (by simpa using spelled_someName) (by simp) (fills_statement nested)
    (starves_statement nested)
  intro t ts hts hn
  apply Tracks.congr ?_ (ample_statement nested)
  apply Tracks.current
  split
  · exact ((ih.conditional t).after hts (by omega)).anywhere
  · exact ((ih.whileLoop t).after hts (by omega)).anywhere
  · exact ((ih.forLoop t).after hts (by omega)).anywhere
  · have hret := ih.expression.map (g := fun x => Node.ret t.pos x) rfl
    exact hret.after hts (by omega)
  · exact .reject rfl
  · exact (ih.definition nested t).after hts (by omega)
  · dsimp only
    split
    · exact .throw rfl fun _ _ _ => rfl
    · have hparams (name : String) := ((ih.params .hostParams).le (Nat.le_succ n)).map
        (g := fun ps => Node.hostDecl t.pos name ps) rfl
      have hhost := (completes_expectName .hostName).seq rfl hparams trivial
      exact (hhost.after hts (by omega)).anywhere
  · exact ih.expression_succ.tracks (t :: ts) hts hn

theorem block_succ (owner : Token) {closers : List TokenKind} (hclosers : Closing closers) :
    Completes (n + 1) (· ∈ closers) (endAt p) 0 [] (ample.block owner closers) := by
  have hrest (first : Node) := (ih.block owner closers hclosers).map
    (g := fun rest => first :: rest) rfl
  apply Completes.of_starves (by simp) (by simp) (fills_block owner closers)
    (starves_block owner hclosers)
  intro t ts hts hn
  apply Tracks.congr ?_ (ample_block owner closers)
  apply Tracks.current
  split
  · exact .pure hts
  · split
    · exact ((ih.block owner closers hclosers).after hts (by omega)).perhaps
    · rename_i hl
      exact absurd (congrArg Lexeme.kind hl) hts.head
    · exact .reject rfl
    · have h := (ih.statement_succ true).bind rfl hrest fun _ hk => (hclosers _ hk).1
      exact (h.tracks (t :: ts) hts hn).perhaps

end

end Whole

theorem whole (n : Nat) (p : Position) : Whole n p := by
  induction n with
  | zero =>
    have hname : ∀ l ∈ [someName], l.Spelled := by simpa using spelled_someName
    have hlist (m : Mark) : ∀ l ∈ [someName, .mark m], l.Spelled := by
      simpa [Lexeme.Spelled] using spelled_someName
    exact {
      statement := fun nested => .zero hname (by simp) (fills_statement nested)
      block := fun owner closers _ => .zero (by simp) (by simp) (fills_block owner closers)
      expression := .zero hname (by simp) fills_expression
      binary := fun least lhs => .zero (by simp) (by simp) (fills_binary least lhs)
      unary := .zero hname (by simp) fills_unary
      arguments := .zero (hlist _) (by simp) fills_arguments
      elements := fun closer h => .zero (hlist _) (by simp) (fills_elements h)
      doArguments := .zero (by simp [Lexeme.Spelled]) (by simp) fills_doArguments
      function := fun place => .zero (by simp [Lexeme.Spelled]) (by simp) (fills_function place)
      names := .zero hname (by simp) fills_names }
  | succ n ih =>
    exact {
      statement := ih.statement_succ
      block := fun owner closers h => ih.block_succ owner h
      expression := ih.expression_succ
      binary := ih.binary_succ
      unary := ih.unary_succ
      arguments := ih.arguments_succ
      elements := fun closer h => ih.elements_succ h
      doArguments := ih.doArguments_succ
      function := ih.function_succ
      names := ih.names_succ }

theorem fills_program : Fills (· = .endOfInput) [] ampleProgram := by
  apply Fills.congr ?_ fun _ => ampleProgram_eq
  apply Fills.ahead
  intro u hu
  simp only [lexeme_of_kind hu]
  exact .pure

theorem completes_program (n : Nat) (p : Position) :
    Completes n (· = .endOfInput) (endAt p) 0 [] ampleProgram := by
  induction n with
  | zero => exact .zero (by simp) (by simp) fills_program
  | succ n ih =>
    apply Completes.of_cons (by simp) (by simp) fills_program
    · apply Tracks.congr ?_ fun _ => ampleProgram_eq
      apply Tracks.idle (a := [])
      intro s u us hu hs
      apply Gives.current hs
      simp only [lexeme_of_kind (hu.elim id id)]
      exact .pure hs
    · intro t ts hts hn
      apply Tracks.congr ?_ fun _ => ampleProgram_eq
      apply Tracks.current
      split
      · exact (ih.after hts (by omega)).perhaps
      · rename_i hl
        exact absurd (congrArg Lexeme.kind hl) hts.head
      · have hrest (first : Node) := ih.map (g := fun rest => first :: rest) rfl
        have h := ((whole (n + 1) p).statement false).bind rfl hrest (by simp [Enters, Stops])
        exact (h.tracks (t :: ts) hts hn).perhaps

end Outcomes

end RealScript.Parse
