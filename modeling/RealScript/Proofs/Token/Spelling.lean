import RealScript.Proofs.Token.Lines

/-! # Tokens that are spelled out

The characters of a token are scanned back as that token if what comes behind them cannot go on with
it. So a text that is put together from the spellings of tokens has these tokens.
-/

namespace RealScript

def isEdge (c : Char) : Bool := !isWordChar c && c != '.' && c != '='

def Breaks (cs : List Char) : Prop := ∀ c ∈ cs.head?, isEdge c = true

def Lexeme.Spelled : Lexeme → Prop
  | .endOfInput => False
  | .identifier name => IsName name
  | .number text x => Decimal.read? text = some x ∧
      ∃ c cs, text.toList = c :: cs ∧ c.isDigit = true ∧ splitNumber false (c :: cs) = (c :: cs, [])
  | .builtin name => name ∈ reservedNames
  | .operator op => op ∈ Operator.table
  | .keyword _ => True
  | .mark _ => True

def Lexeme.Parts : Lexeme → List Char → Prop
  | .mark _, _ => True
  | _, cs => Breaks cs

theorem Breaks.parts {cs : List Char} (h : Breaks cs) (l : Lexeme) : l.Parts cs := by
  cases l with
  | mark => trivial
  | _ => exact h

theorem not_numeric_of_isEdge {c : Char} (h : isEdge c = true) : c.isDigit = false ∧ c ≠ '.' := by
  simp only [isEdge, isWordChar, Bool.and_eq_true, Bool.not_eq_true', Bool.or_eq_false_iff,
    bne_iff_ne] at h
  exact ⟨h.1.1.2, h.1.2⟩

theorem isDigit_iff (c : Char) : c.isDigit = true ↔ 48 ≤ c.toNat ∧ c.toNat ≤ 57 := by
  simp [Char.isDigit, UInt32.le_iff_toNat_le]

theorem isLetter_iff (c : Char) : isLetter c = true ↔
    c.toNat = 95 ∨ (65 ≤ c.toNat ∧ c.toNat ≤ 90) ∨ (97 ≤ c.toNat ∧ c.toNat ≤ 122) := by
  have h : c = '_' ↔ c.toNat = 95 := by
    rw [← Char.toNat_inj]
    rfl
  simp [isLetter, Char.isAlpha, Char.isUpper, Char.isLower, h, UInt32.le_iff_toNat_le]

theorem not_isLetter_of_isDigit {c : Char} (h : c.isDigit = true) : isLetter c = false := by
  rw [isDigit_iff] at h
  rw [← Bool.not_eq_true, isLetter_iff]
  omega

theorem not_isBlank_of_isWordChar {c : Char} (h : isWordChar c = true) :
    Text.isBlank c = false ∧ c ≠ '#' := by
  constructor
  · simp only [isWordChar, Bool.or_eq_true, isLetter_iff, isDigit_iff] at h
    simp only [Text.isBlank, Bool.or_eq_false_iff, Bool.and_eq_false_iff, decide_eq_false_iff_not,
      beq_eq_false_iff_ne]
    omega
  · rintro rfl
    revert h
    decide

theorem Breaks.takeWhile {p : Char → Bool} {cs : List Char} (h : Breaks cs)
    (hp : ∀ c, isEdge c = true → p c = false) : cs.takeWhile p = [] ∧ cs.dropWhile p = cs := by
  cases cs with
  | nil => exact ⟨rfl, rfl⟩
  | cons c cs =>
    have hc := hp c (h c rfl)
    simp [hc]

namespace Cursor

theorem tokenAt_word {c : Char} {cs more : List Char} (hc : isLetter c = true)
    (hcs : ∀ d ∈ cs, isWordChar d = true) (hmore : Breaks more) :
    tokenAt c (cs ++ more) = (.ok (Lexeme.ofWord (String.ofList (c :: cs))), c :: cs, more) := by
  obtain ⟨htake, hdrop⟩ := hmore.takeWhile (p := isWordChar) fun c hc => by
    simp only [isEdge, Bool.and_eq_true, Bool.not_eq_true'] at hc
    exact hc.1.1
  have htakeAll : (cs ++ more).takeWhile isWordChar = cs := by
    rw [List.takeWhile_append_of_pos hcs, htake, List.append_nil]
  have hdropAll : (cs ++ more).dropWhile isWordChar = more := by
    rw [List.dropWhile_append_of_pos hcs, hdrop]
  simp [tokenAt, hc, htakeAll, hdropAll]

theorem find?_pair {c d : Char} (hc : isLetter c = false) (hd : isEdge d = true) :
    Operator.find? (String.ofList [c, d]) = none := by
  have hsecond : ∀ o ∈ Operator.table, o.spelling.toList[0]?.all (fun c =>
      isLetter c || o.spelling.toList[1]?.all (· == '=')) = true := by decide
  rw [Operator.find?, List.find?_eq_none]
  intro o ho heq
  have hspell : o.spelling.toList = [c, d] := by rw [beq_iff_eq.mp heq, String.toList_ofList]
  have hequals := hsecond o ho
  simp only [hspell, List.getElem?_cons_zero, List.getElem?_cons_succ, Option.all_some, hc,
    Bool.false_or, beq_iff_eq] at hequals
  exact absurd hd (by rw [hequals]; decide)

section Alone

variable {c : Char} {more : List Char}

theorem symbolAt_alone (hpair : ∀ d ∈ more.head?, Operator.find? (String.ofList [c, d]) = none) :
    symbolAt c more = match Operator.find? c.toString with
      | some op => some (.operator op, [c], more)
      | none => (Mark.find? c).map fun m => (.mark m, [c], more) := by
  cases more with
  | nil => rfl
  | cons d more => cases hop : Operator.find? c.toString <;> simp only [symbolAt, hpair d rfl, hop]

theorem tokenAt_operator_alone (hc : isLetter c = false) (hdigit : c.isDigit = false)
    (hmore : Breaks more) {op : Operator} (hop : Operator.find? c.toString = some op) :
    tokenAt c more = (.ok (.operator op), [c], more) := by
  have hpair : ∀ d ∈ more.head?, Operator.find? (String.ofList [c, d]) = none :=
    fun d hd => find?_pair hc (hmore d hd)
  simp only [tokenAt, hc, hdigit, symbolAt_alone hpair, hop, Bool.false_eq_true, if_false]

theorem tokenAt_operator_equals (hc : isLetter c = false) (hdigit : c.isDigit = false)
    {op : Operator} (hop : Operator.find? (String.ofList [c, '=']) = some op) :
    tokenAt c ('=' :: more) = (.ok (.operator op), [c, '='], more) := by
  simp only [tokenAt, hc, hdigit, symbolAt, hop, Bool.false_eq_true, if_false]

theorem tokenAt_mark (m : Mark) (more : List Char) :
    tokenAt m.char more = (.ok (.mark m), [m.char], more) := by
  have hc : isLetter m.char = false := by cases m <;> decide +kernel
  have hdigit : m.char.isDigit = false := by cases m <;> decide +kernel
  have hop : Operator.find? m.char.toString = none := by cases m <;> decide +kernel
  have hm : Mark.find? m.char = some m := by cases m <;> decide +kernel
  have hfirst : ∀ o ∈ Operator.table, o.spelling.toList.head? ≠ some m.char := by
    cases m <;> decide +kernel
  have hpair : ∀ d ∈ more.head?, Operator.find? (String.ofList [m.char, d]) = none := by
    intro d _
    rw [Operator.find?, List.find?_eq_none]
    intro o ho heq
    refine hfirst o ho ?_
    rw [beq_iff_eq.mp heq, String.toList_ofList]
    rfl
  simp only [tokenAt, hc, hdigit, symbolAt_alone hpair, hop, hm, Bool.false_eq_true, if_false,
    Option.map_some]

end Alone

theorem tokenAt_ofWord {w : String} {l : Lexeme} (hl : Lexeme.ofWord w = l)
    (hw : w.toList.head?.any isLetter = true ∧ w.toList.all isWordChar = true) {more : List Char}
    (hmore : Breaks more) :
    ∃ c cs, w.toList = c :: cs ∧ tokenAt c (cs ++ more) = (.ok l, c :: cs, more) := by
  cases hcs : w.toList with
  | nil => simp [hcs] at hw
  | cons c cs =>
    rw [hcs] at hw
    simp only [List.head?_cons, Option.any_some, List.all_cons, Bool.and_eq_true,
      List.all_eq_true] at hw
    refine ⟨c, cs, rfl, ?_⟩
    rw [tokenAt_word hw.1 hw.2.2 hmore, ← hcs, String.ofList_toList, hl]

theorem tokenAt_operator {op : Operator} (hop : op ∈ Operator.table) {more : List Char}
    (hmore : Breaks more) : ∃ c cs, op.spelling.toList = c :: cs ∧
      tokenAt c (cs ++ more) = (.ok (.operator op), c :: cs, more) := by
  -- An operator is a word, or a character alone, or one in front of an equals sign.
  have hcases : ∀ op ∈ Operator.table,
      ((op.spelling.toList.head?.any isLetter = true ∧ op.spelling.toList.all isWordChar = true) ∧
        Keyword.find? op.spelling = none ∧ op.spelling ∉ reservedNames ∧
        Operator.find? op.spelling = some op) ∨
      op.spelling.toList.head?.all (fun c => decide (isLetter c = false ∧ c.isDigit = false ∧
        (op.spelling.toList = [c] ∧ Operator.find? c.toString = some op ∨
          op.spelling.toList = [c, '='] ∧
            Operator.find? (String.ofList [c, '=']) = some op))) = true := by decide
  have hne : ∀ op ∈ Operator.table, op.spelling.toList ≠ [] := by decide
  rcases hcases op hop with ⟨hword, hkeyword, hreserved, hfind⟩ | hsymbol
  · exact tokenAt_ofWord (by simp [Lexeme.ofWord, hkeyword, hreserved, hfind]) hword hmore
  · cases hspell : op.spelling.toList with
    | nil => exact absurd hspell (hne op hop)
    | cons c cs =>
      simp only [hspell, List.head?_cons, Option.all_some] at hsymbol
      obtain ⟨hc, hdigit, ⟨hcs, hfind⟩ | ⟨hcs, hfind⟩⟩ := of_decide_eq_true hsymbol
      · obtain ⟨-, rfl⟩ := List.cons.inj hcs
        exact ⟨c, [], rfl, tokenAt_operator_alone hc hdigit hmore hfind⟩
      · obtain ⟨-, rfl⟩ := List.cons.inj hcs
        exact ⟨c, ['='], rfl, tokenAt_operator_equals hc hdigit hfind⟩

theorem tokenAt_spelled {l : Lexeme} (hl : l.Spelled) {more : List Char} (hmore : l.Parts more) :
    ∃ c cs, l.spelling.toList = c :: cs ∧ tokenAt c (cs ++ more) = (.ok l, c :: cs, more) := by
  cases l with
  | endOfInput => exact hl.elim
  | identifier name =>
    obtain ⟨⟨c, cs, hname, hc, hcs⟩, hfree⟩ := hl
    refine ⟨c, cs, hname, ?_⟩
    rw [tokenAt_word hc hcs hmore, ← hname, String.ofList_toList, hfree]
  | number text x =>
    obtain ⟨hread, c, cs, htext, hc, hsplit⟩ := hl
    refine ⟨c, cs, htext, ?_⟩
    have hletter : isLetter c = false := not_isLetter_of_isDigit hc
    have hmore : splitNumber false (c :: (cs ++ more)) = (c :: cs, more) := by
      cases more with
      | nil => rw [List.append_nil, hsplit]
      | cons d more =>
        obtain ⟨hd, hpoint⟩ := not_numeric_of_isEdge (hmore d rfl)
        rw [← List.cons_append, splitNumber_append_cons hd hpoint, hsplit]
        rfl
    have hofList : String.ofList (c :: cs) = text := by rw [← htext, String.ofList_toList]
    simp only [tokenAt, hletter, hc, hmore, hofList, hread, Bool.false_eq_true, if_false, if_true]
  | builtin name =>
    have hwords : ∀ w ∈ reservedNames, (w.toList.head?.any isLetter = true ∧
        w.toList.all isWordChar = true) ∧ Keyword.find? w = none := by decide
    obtain ⟨hword, hkeyword⟩ := hwords name hl
    exact tokenAt_ofWord (by simp [Lexeme.ofWord, hkeyword, show name ∈ reservedNames from hl])
      hword
      hmore
  | operator op => exact tokenAt_operator hl hmore
  | keyword k =>
    have hkeyword : Keyword.find? k.spelling = some k := by cases k <;> decide
    exact tokenAt_ofWord (by simp [Lexeme.ofWord, hkeyword, Lexeme.spelling])
      (by cases k <;> decide) hmore
  | mark m => exact ⟨m.char, [], by simp [Lexeme.spelling], tokenAt_mark m more⟩

def startsToken (s : String) : Bool := s.toList.head?.all fun c => !Text.isBlank c && c != '#'

theorem of_startsToken {s : String} (h : startsToken s = true) :
    ∀ c ∈ s.toList.head?, Text.isBlank c = false ∧ c ≠ '#' := by
  intro c hc
  rw [startsToken, Option.mem_def.mp hc] at h
  simpa using h

theorem start_of_spelled {l : Lexeme} (hl : l.Spelled) :
    ∀ c ∈ l.spelling.toList.head?, Text.isBlank c = false ∧ c ≠ '#' := by
  intro c hc
  cases l with
  | endOfInput => exact hl.elim
  | identifier name =>
    obtain ⟨⟨d, cs, hname, hd, -⟩, -⟩ := hl
    simp only [Lexeme.spelling, hname, List.head?_cons, Option.mem_some_iff] at hc
    exact not_isBlank_of_isWordChar (by simp [isWordChar, ← hc, hd])
  | number text x =>
    obtain ⟨-, d, cs, htext, hd, -⟩ := hl
    simp only [Lexeme.spelling, htext, List.head?_cons, Option.mem_some_iff] at hc
    exact not_isBlank_of_isWordChar (by simp [isWordChar, ← hc, hd])
  | builtin name =>
    have hstart : ∀ w ∈ reservedNames, startsToken w = true := by decide
    exact of_startsToken (hstart name hl) c hc
  | operator op =>
    have hstart : ∀ o ∈ Operator.table, startsToken o.spelling = true := by decide
    exact of_startsToken (hstart op hl) c hc
  | keyword k =>
    exact of_startsToken (s := (Lexeme.keyword k).spelling) (by cases k <;> decide) c hc
  | mark m => exact of_startsToken (s := (Lexeme.mark m).spelling) (by cases m <;> decide) c hc

theorem next_spelled {l : Lexeme} (hl : l.Spelled) {more : List Char} (hmore : l.Parts more)
    (p : Position) : next { rest := l.spelling.toList ++ more, pos := p } =
      (.ok ⟨l, p⟩, { rest := more, pos := p.after l.spelling.toList }) := by
  obtain ⟨c, cs, hspell, htoken⟩ := tokenAt_spelled hl hmore
  obtain ⟨hblank, hmark⟩ := start_of_spelled hl c (by rw [hspell]; rfl)
  simp [next, hspell, skipBlank, hblank, hmark, htoken]

end Cursor

/-- A text that is put together from blanks and the spellings of tokens, in which no token goes on
with the one in front of it. -/
inductive Spells : List Char → List Lexeme → Prop
  | nil : Spells [] []
  | blank {c : Char} {cs : List Char} {ls : List Lexeme} : Text.isBlank c = true → Spells cs ls →
    Spells (c :: cs) ls
  | token {l : Lexeme} {cs : List Char} {ls : List Lexeme} : l.Spelled → l.Parts cs → Spells cs ls →
    Spells (l.spelling.toList ++ cs) (l :: ls)

namespace Spells

theorem append {cs ds : List Char} {ls ms : List Lexeme} (hcs : Spells cs ls) (hds : Spells ds ms)
    (hbreak : Breaks ds) : Spells (cs ++ ds) (ls ++ ms) := by
  induction hcs with
  | nil => exact hds
  | blank hc _ ih => exact .blank hc ih
  | @token l cs ls hl hcs _ ih =>
    rw [List.append_assoc]
    refine .token hl ?_ ih
    cases cs with
    | nil => exact hbreak.parts l
    | cons c cs =>
      cases l with
      | mark => trivial
      | _ => exact hcs

theorem scan {cs : List Char} {ls : List Lexeme} (h : Spells cs ls) (p : Position) :
    ∃ ts e, Scan.ofCursor { rest := cs, pos := p } = { tokens := ts ++ [e] } ∧
      ts.map Token.lexeme = ls ∧ e.kind = .endOfInput := by
  induction h generalizing p with
  | nil => exact ⟨[], _, rfl, rfl, rfl⟩
  | @blank c cs ls hc _ ih =>
    obtain ⟨ts, e, hscan, hts, he⟩ := ih (p.step c)
    refine ⟨ts, e, ?_, hts, he⟩
    rw [← hscan]
    apply Scan.ofCursor_congr
    · simp [Cursor.next, skipBlank, hc]
    · rfl
    · simp
  | @token l cs ls hl hcs _ ih =>
    obtain ⟨ts, e, hscan, hts, he⟩ := ih (p.after l.spelling.toList)
    refine ⟨⟨l, p⟩ :: ts, e, ?_, by rw [List.map_cons, hts], he⟩
    obtain ⟨c, ds, hspell, htoken⟩ := Cursor.tokenAt_spelled hl hcs
    have hlen : cs.length < (l.spelling.toList ++ cs).length := by
      rw [hspell, List.length_append, List.length_cons]
      omega
    rw [Scan.ofCursor_of_token (Cursor.next_spelled hl hcs p) (scanned_tokenAt htoken).2 rfl hlen,
      hscan]
    rfl

end Spells

end RealScript
