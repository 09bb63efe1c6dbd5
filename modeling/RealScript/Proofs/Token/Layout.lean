import RealScript.Proofs.Decimal.Reading

/-! # The layout of a source

A source is woven from the spellings of its tokens and the gaps between them, in one way only. A
token takes as many characters as it can and carries the position of the first of them. Scanning
stops where no token starts, or in front of a number that is out of range.
-/

namespace RealScript

variable {cs : List Char} {last : Bool} {c : Char}

variable {l : Lexeme} {rest taken text : List Char}

/-! ## Positions -/

namespace Position

/-- The position behind a text: the line ends in it and the characters behind the last of them, both
counted from one. -/
def behind (before : List Char) : Position :=
  ⟨1 + (before.count '\n' : Nat), 1 + (before.reverse.takeWhile (· ≠ '\n')).length⟩

theorem step_behind (before : List Char) (c : Char) :
    (behind before).step c = behind (before ++ [c]) := by
  unfold step behind
  split
  · rename_i hc
    subst hc
    simp [Int.add_assoc]
  · rename_i hc
    simp [hc, Int.add_assoc]

theorem after_behind (before cs : List Char) :
    (behind before).after cs = behind (before ++ cs) := by
  induction cs generalizing before with
  | nil => simp [after]
  | cons c cs ih =>
    show ((behind before).step c).after cs = _
    rw [step_behind, ih, List.append_assoc, List.singleton_append]

theorem after_later (p : Position) (cs : List Char) : p.line ≤ (p.after cs).line ∧
    ((p.after cs).line = p.line → (p.after cs).col = p.col + cs.length) := by
  induction cs generalizing p with
  | nil => simp [after]
  | cons c cs ih =>
    obtain ⟨hline, hcol⟩ := ih (p.step c)
    change p.line ≤ ((p.step c).after cs).line ∧ (((p.step c).after cs).line = p.line →
      ((p.step c).after cs).col = p.col + _)
    rw [List.length_cons]
    push_cast
    by_cases hc : c = '\n'
    · have hstep : (p.step c).line = p.line + 1 := by simp [step, hc]
      omega
    · have hstep : (p.step c).line = p.line ∧ (p.step c).col = p.col + 1 := by simp [step, hc]
      omega

theorem behind_inj {before before' cs' : List Char} (h : before ++ cs = before' ++ cs')
    (hp : behind before = behind before') : before = before' := by
  wlog hle : before.length ≤ before'.length generalizing before before' cs cs'
  · exact (this h.symm hp.symm (by omega)).symm
  obtain ⟨more, rfl⟩ := List.prefix_of_prefix_length_le ⟨cs, h⟩ ⟨cs', rfl⟩ hle
  rw [← after_behind] at hp
  have hlater := (after_later (behind before) more).2 (congrArg line hp.symm)
  rw [← hp] at hlater
  obtain rfl := List.length_eq_zero_iff.mp (show more.length = 0 by omega)
  rw [List.append_nil]

end Position

/-! ## Gaps -/

/-- What may stand between tokens: blanks and comments, each with its line end. Behind the last
token a comment may run to the end of the text. -/
inductive Gap (last : Bool) : List Char → Prop
  | nil : Gap last []
  | blank {c : Char} {cs : List Char} : Text.isBlank c = true → Gap last cs → Gap last (c :: cs)
  | comment {text cs : List Char} : '\n' ∉ text → Gap last cs →
    Gap last ('#' :: (text ++ '\n' :: cs))
  | unfinished {text : List Char} : last = true → '\n' ∉ text → Gap last ('#' :: text)

def Visible (c : Char) : Prop := Text.isBlank c = false ∧ c ≠ '#'

theorem skipBlank_line (h : '\n' ∉ text) (p : Position) (cs : List Char) :
    skipBlank true p (text ++ '\n' :: cs) = skipBlank false (p.after (text ++ ['\n'])) cs := by
  induction text generalizing p with
  | nil => simp [skipBlank, Position.after]
  | cons c text ih =>
    have hc : c ≠ '\n' := fun hc => h (hc ▸ List.mem_cons_self)
    rw [List.cons_append, skipBlank, decide_eq_true hc, ih fun hm => h (List.mem_cons_of_mem c hm)]
    rfl

theorem skipBlank_lastLine (h : '\n' ∉ text) (p : Position) :
    skipBlank true p text = (p.after text, []) := by
  induction text generalizing p with
  | nil => rfl
  | cons c text ih =>
    have hc : c ≠ '\n' := fun hc => h (hc ▸ List.mem_cons_self)
    rw [skipBlank, decide_eq_true hc, ih fun hm => h (List.mem_cons_of_mem c hm)]
    rfl

namespace Gap

theorem skipBlank {g rest : List Char} (hg : Gap last g) (hrest : ∀ c ∈ rest.head?, Visible c)
    (hlast : last = true → rest = []) (p : Position) :
    RealScript.skipBlank false p (g ++ rest) = (p.after g, rest) := by
  induction hg generalizing p with
  | nil =>
    cases rest with
    | nil => rfl
    | cons c cs =>
      obtain ⟨hblank, hmark⟩ := hrest c rfl
      simp [RealScript.skipBlank, hblank, hmark, Position.after]
  | @blank c cs hc _ ih =>
    rw [List.cons_append, RealScript.skipBlank, if_pos hc, ih]
    rfl
  | @comment text cs htext _ ih =>
    rw [List.cons_append, RealScript.skipBlank, if_neg (by decide), if_pos rfl, List.append_assoc,
      List.cons_append,
      skipBlank_line htext, ih]
    simp [Position.after]
  | @unfinished text hopen htext =>
    rw [hlast hopen, List.append_nil, RealScript.skipBlank, if_neg (by decide), if_pos rfl,
      skipBlank_lastLine htext]
    rfl

end Gap

def CommentTail (last : Bool) (g : List Char) : Prop :=
  (∃ text cs, '\n' ∉ text ∧ Gap last cs ∧ g = text ++ '\n' :: cs) ∨ last = true ∧ '\n' ∉ g

theorem skipBlank_gap (inComment : Bool) (p : Position) (cs : List Char) :
    ∃ g, cs = g ++ (skipBlank inComment p cs).2 ∧ (skipBlank inComment p cs).1 = p.after g ∧
      (∀ c ∈ (skipBlank inComment p cs).2.head?, Visible c) ∧
      if inComment then CommentTail (skipBlank inComment p cs).2.isEmpty g else Gap
      (skipBlank inComment p cs).2.isEmpty g := by
  fun_induction skipBlank inComment p cs with
  | case1 inComment p =>
    refine ⟨[], rfl, rfl, by simp, ?_⟩
    cases inComment
    · exact .nil
    · exact .inr ⟨rfl, List.not_mem_nil⟩
  | case2 p c cs ih =>
    obtain ⟨g, hcs, hp, hvisible, hg⟩ := ih
    refine ⟨c :: g, congrArg _ hcs, hp, hvisible, ?_⟩
    by_cases hc : c = '\n'
    · subst hc
      exact .inl ⟨[], g, List.not_mem_nil, hg, rfl⟩
    · rw [decide_eq_true hc, if_pos rfl] at hg
      rw [decide_eq_true hc, if_pos rfl]
      obtain ⟨text, ds, htext, hds, rfl⟩ | ⟨hlast, hnone⟩ := hg
      · exact .inl ⟨c :: text, ds, by simp [htext, Ne.symm hc], hds, rfl⟩
      · exact .inr ⟨hlast, by simp [hnone, Ne.symm hc]⟩
  | case3 p c cs hblank ih =>
    obtain ⟨g, hcs, hp, hvisible, hg⟩ := ih
    exact ⟨c :: g, congrArg _ hcs, hp, hvisible, .blank hblank hg⟩
  | case4 p cs hblank ih =>
    obtain ⟨g, hcs, hp, hvisible, hg⟩ := ih
    refine ⟨'#' :: g, congrArg _ hcs, hp, hvisible, ?_⟩
    obtain ⟨text, ds, htext, hds, rfl⟩ | ⟨hlast, hnone⟩ := hg
    · exact .comment htext hds
    · exact .unfinished hlast hnone
  | case5 p c cs hblank hmark =>
    refine ⟨[], rfl, rfl, fun d hd => ?_, .nil⟩
    obtain rfl : c = d := Option.some.inj hd
    exact ⟨by simpa using hblank, hmark⟩

/-! ## Weaving -/

/-- A text is woven from the spellings of tokens, with a gap in front of each and one behind the
last. -/
inductive Woven (last : Bool) : List Char → List Lexeme → List (List Char) → Prop
  | done {g : List Char} : Gap last g → Woven last g [] [g]
  | token {g rest : List Char} {l : Lexeme} {ls : List Lexeme} {gs : List (List Char)} :
    Gap false g →
    Woven last rest ls gs → Woven last (g ++ l.spelling.toList ++ rest) (l :: ls) (g :: gs)

theorem Woven.cons_inv {ls : List Lexeme} {gs : List (List Char)}
    (h : Woven last text (l :: ls) gs) :
    ∃ g rest hs, text = g ++ l.spelling.toList ++ rest ∧ gs = g :: hs ∧
      Gap false g ∧ Woven last rest ls hs := by
  generalize hls : l :: ls = ls' at h
  cases h with
  | done => cases hls
  | token hg hrest =>
    obtain ⟨rfl, rfl⟩ := List.cons.inj hls
    exact ⟨_, _, _, rfl, rfl, hg, hrest⟩

theorem Lexeme.Spelled.visible_cons (hl : l.Spelled) :
    ∃ c cs, l.spelling.toList = c :: cs ∧ Visible c := by
  have hend : Breaks [] := fun c hc => absurd hc (Option.not_mem_none c)
  obtain ⟨c, cs, hspell, -⟩ := Cursor.tokenAt_spelled hl (hend.parts l)
  exact ⟨c, cs, hspell, Cursor.start_of_spelled hl c (by rw [hspell, List.head?_cons]; rfl)⟩

theorem Lexeme.Spelled.visible (hl : l.Spelled) (rest : List Char) :
    ∀ c ∈ (l.spelling.toList ++ rest).head?, Visible c := by
  obtain ⟨c, cs, hspell, hc⟩ := hl.visible_cons
  intro d hd
  rw [hspell, List.cons_append, List.head?_cons] at hd
  rwa [← Option.some.inj hd]

theorem Woven.unique {ls : List Lexeme} {gs hs : List (List Char)}
    (hls : ∀ l ∈ ls, l.Spelled) (hg : Woven last text ls gs) (hh : Woven last text ls hs) :
    gs = hs := by
  induction hg generalizing hs with
  | done _ =>
    cases hh
    rfl
  | @token g rest l ls gs hgap _ ih =>
    obtain ⟨g', rest', gs', htext, rfl, hgap', hrest'⟩ := hh.cons_inv
    have hl := hls l List.mem_cons_self
    rw [List.append_assoc, List.append_assoc] at htext
    -- Both gaps end in front of the first character that is visible.
    have hskip := hgap.skipBlank (hl.visible rest) (by simp) {}
    rw [htext, hgap'.skipBlank (hl.visible rest') (by simp) {}] at hskip
    obtain rfl := List.append_cancel_left (Prod.mk.inj hskip).2
    obtain rfl := List.append_cancel_right htext
    rw [ih (fun l hm => hls l (List.mem_cons_of_mem _ hm)) hrest']

/-! ## Tokens as long as possible -/

inductive Tokenlike : List Char → Prop
  | word {c : Char} {cs : List Char} : isLetter c = true → (∀ d ∈ cs, isWordChar d = true) →
    Tokenlike (c :: cs)
  | number {cs : List Char} : Decimal.Written cs → Tokenlike cs
  | operator {op : Operator} : op ∈ Operator.table → Tokenlike op.spelling.toList
  | mark (m : Mark) : Tokenlike [m.char]

/-- What no token starts with: a character in front of which none is found, or a number that is out
of range. -/
inductive Unreadable : List Char → Prop
  | character {c : Char} {cs : List Char} : Visible c → (∀ taken, taken <+: c :: cs →
    ¬ Tokenlike taken) →
    Unreadable (c :: cs)
  | number {ds rest : List Char} {es : Option (List Char)} : ds ≠ [] →
    (∀ c ∈ ds ++ es.getD [], c.isDigit = true) →
    (∀ c ∈ rest.head?, ¬ Tokenlike (Decimal.numberText ds es ++ [c])) →
    Decimal.overflowBound ≤ Decimal.fraction ds es → Unreadable (Decimal.numberText ds es ++ rest)

theorem operator_short {op : Operator} (hop : op ∈ Operator.table)
    (hspell : op.spelling.toList = c :: cs) :
    c.isDigit = false ∧ (isLetter c = true → ∀ d ∈ cs, isWordChar d = true) ∧
      (isLetter c = false → cs.length ≤ 1) := by
  have hall : ∀ op ∈ Operator.table, op.spelling.toList.head?.all
    (fun c => decide (c.isDigit = false ∧
      (isLetter c = true → op.spelling.toList.tail.all isWordChar = true) ∧
      (isLetter c = false → op.spelling.toList.tail.length ≤ 1))) = true := by decide
  have h := hall op hop
  rw [hspell, List.head?_cons, Option.all_some, decide_eq_true_eq, List.tail_cons,
    List.all_eq_true] at h
  exact h

theorem not_operator_of_find? {s : String} (h : Operator.find? s = none) {op : Operator}
    (hop : op ∈ Operator.table) :
    op.spelling ≠ s := by
  rw [Operator.find?, List.find?_eq_none] at h
  simpa using h op hop

theorem mark_symbol (m : Mark) : isLetter m.char = false ∧ m.char.isDigit = false := by
  cases m <;> decide +kernel

theorem Decimal.Written.head (h : Written (c :: cs)) : c.isDigit = true := by
  obtain ⟨d, ds, hds, heq | ⟨es, -, heq⟩⟩ := h
  · rw [(List.cons.inj heq).1]
    exact hds d List.mem_cons_self
  · rw [(List.cons.inj heq).1]
    exact hds d List.mem_cons_self

namespace Tokenlike

theorem of_letter (h : Tokenlike (c :: cs)) (hc : isLetter c = true) :
    ∀ d ∈ cs, isWordChar d = true := by
  generalize htext : c :: cs = text at h
  cases h with
  | word _ hall =>
    obtain ⟨rfl, rfl⟩ := List.cons.inj htext
    exact hall
  | number hw =>
    subst htext
    rw [not_isLetter_of_isDigit hw.head] at hc
    cases hc
  | operator hop => exact (operator_short hop htext.symm).2.1 hc
  | mark m =>
    obtain ⟨rfl, rfl⟩ := List.cons.inj htext
    exact List.forall_mem_nil _

theorem of_digit (h : Tokenlike (c :: cs)) (hc : c.isDigit = true) : Decimal.Written (c :: cs) := by
  generalize htext : c :: cs = text at h
  cases h with
  | word hletter _ =>
    obtain ⟨rfl, rfl⟩ := List.cons.inj htext
    rw [not_isLetter_of_isDigit hc] at hletter
    cases hletter
  | number hw => exact htext ▸ hw
  | operator hop =>
    rw [(operator_short hop htext.symm).1] at hc
    cases hc
  | mark m =>
    obtain ⟨rfl, rfl⟩ := List.cons.inj htext
    rw [(mark_symbol m).2] at hc
    cases hc

theorem of_symbol (h : Tokenlike (c :: cs)) (hletter : isLetter c = false)
    (hdigit : c.isDigit = false) :
    (∃ op ∈ Operator.table, op.spelling = String.ofList (c :: cs)) ∧ cs.length ≤ 1 ∨
      cs = [] ∧ ∃ m : Mark, m.char = c := by
  generalize htext : c :: cs = text at h
  cases h with
  | word hc _ =>
    obtain ⟨rfl, rfl⟩ := List.cons.inj htext
    rw [hletter] at hc
    cases hc
  | number hw =>
    subst htext
    rw [hw.head] at hdigit
    cases hdigit
  | operator hop =>
    exact .inl ⟨⟨_, hop, String.ofList_toList.symm⟩, (operator_short hop htext.symm).2.2 hletter⟩
  | mark m =>
    obtain ⟨rfl, rfl⟩ := List.cons.inj htext
    exact .inr ⟨rfl, m, rfl⟩

end Tokenlike

/-! ## What is read -/

theorem splitNumber_of_all {seenPoint : Bool} (h : splitNumber seenPoint cs = (cs, []))
    (more : List Char) : cs.length ≤ (splitNumber seenPoint (cs ++ more)).1.length := by
  induction cs generalizing seenPoint with
  | nil => exact Nat.zero_le _
  | cons c cs ih =>
    rw [splitNumber] at h
    rw [List.cons_append, splitNumber]
    split at h
    · rename_i hc
      rw [if_pos hc]
      obtain ⟨htext, hrest⟩ := Prod.mk.inj h
      exact Nat.succ_le_succ (ih (Prod.ext (List.cons.inj htext).2 hrest))
    · rename_i hc
      rw [if_neg hc]
      split at h
      · rename_i hpoint
        rw [if_pos hpoint]
        obtain ⟨htext, hrest⟩ := Prod.mk.inj h
        exact Nat.succ_le_succ (ih (Prod.ext (List.cons.inj htext).2 hrest))
      · cases (Prod.mk.inj h).2

theorem splitNumber_text (hc : c.isDigit = true) (cs : List Char) :
    ∃ ds es, (splitNumber false (c :: cs)).1 = Decimal.numberText ds es ∧ ds ≠ [] ∧
      ∀ d ∈ ds ++ es.getD [], d.isDigit = true := by
  have hpoint (cs : List Char) : ∀ d ∈ (splitNumber true cs).1, d.isDigit = true := by
    induction cs with
    | nil => exact List.forall_mem_nil _
    | cons d cs ih =>
      rw [splitNumber]
      split
      · exact List.forall_mem_cons.mpr ⟨‹_›, ih⟩
      · rw [if_neg (by simp)]
        exact List.forall_mem_nil _
  have hwhole (cs : List Char) : ∃ ds es, (splitNumber false cs).1 = Decimal.numberText ds es ∧
      ∀ d ∈ ds ++ es.getD [], d.isDigit = true := by
    induction cs with
    | nil => exact ⟨[], none, rfl, List.forall_mem_nil _⟩
    | cons d cs ih =>
      rw [splitNumber]
      split
      · obtain ⟨ds, es, htext, hall⟩ := ih
        exact ⟨d :: ds, es, congrArg (d :: ·) htext, List.forall_mem_cons.mpr ⟨‹_›, hall⟩⟩
      · split
        · rename_i hd
          obtain ⟨rfl, -⟩ := hd
          exact ⟨[], some (splitNumber true cs).1, rfl, hpoint cs⟩
        · exact ⟨[], none, rfl, List.forall_mem_nil _⟩
  obtain ⟨ds, es, htext, hall⟩ := hwhole cs
  refine ⟨c :: ds, es, ?_, List.cons_ne_nil _ _, List.forall_mem_cons.mpr ⟨hc, hall⟩⟩
  rw [splitNumber, if_pos hc]
  exact congrArg (c :: ·) htext

theorem Decimal.written_numberText {ds : List Char} {es : Option (List Char)} (hne : ds ≠ [])
    (hds : ∀ c ∈ ds ++ es.getD [], c.isDigit = true) : Written (numberText ds es) := by
  obtain ⟨hds, hes⟩ := List.forall_mem_append.mp hds
  obtain ⟨d, ds, rfl⟩ := List.exists_cons_of_ne_nil hne
  refine ⟨d, ds, hds, ?_⟩
  cases es with
  | none => exact .inl (List.append_nil _)
  | some es => exact .inr ⟨es, hes, rfl⟩

theorem splitNumber_longest (hc : c.isDigit = true) (cs : List Char) :
    ∀ d ∈ (splitNumber false (c :: cs)).2.head?, ¬ Tokenlike
    ((splitNumber false (c :: cs)).1 ++ [d]) := by
  intro d hd ht
  obtain ⟨rest, hrest⟩ := List.head?_eq_some_iff.mp hd
  have hcons : (splitNumber false (c :: cs)).1 ++ [d] = c :: ((splitNumber false cs).1 ++ [d]) := by
    rw [splitNumber, if_pos hc]
    rfl
  rw [hcons] at ht
  obtain ⟨e, es, heq, -, hsplit⟩ := (ht.of_digit hc).split
  rw [← heq, ← hcons] at hsplit
  have hlen := splitNumber_of_all hsplit rest
  rw [List.append_assoc, List.singleton_append, ← hrest, splitNumber_append, List.length_append,
    List.length_singleton] at hlen
  omega

theorem Decimal.overflow_of_readChars {ds : List Char} {es : Option (List Char)} (hne : ds ≠ [])
    (hds : ∀ c ∈ ds ++ es.getD [], c.isDigit = true) (h : readChars (numberText ds es) = none) :
    overflowBound ≤ fraction ds es := by
  by_contra hlt
  have hread := readChars_numberText hds hne
  rw [h, eq_comm, Option.map_eq_none_iff] at hread
  refine scaled?_ne_none ?_ hread
  rw [zpow_neg, zpow_natCast, ← div_eq_mul_inv]
  exact not_le.mp hlt

theorem spelling_ofWord (w : String) : (Lexeme.ofWord w).spelling = w := by
  unfold Lexeme.ofWord
  split
  · rename_i k hk
    have hspell := List.find?_some hk
    exact beq_iff_eq.mp hspell
  · split
    · rfl
    · split
      · rename_i op hop
        have hspell := List.find?_some hop
        exact beq_iff_eq.mp hspell
      · rfl

theorem spelled_ofWord (hc : isLetter c = true) (hcs : ∀ d ∈ cs, isWordChar d = true) :
    (Lexeme.ofWord (String.ofList (c :: cs))).Spelled := by
  rcases Lexeme.ofWord_cases (String.ofList (c :: cs)) with ⟨k, he⟩ | ⟨he, hr⟩ | ⟨op, hop,
    he⟩ | he <;> rw [he]
  · trivial
  · exact hr
  · exact hop
  · exact ⟨⟨c, cs, String.toList_ofList, hc, hcs⟩, he⟩

theorem not_tokenlike_nil : ¬ Tokenlike [] := by
  intro h
  generalize htext : [] = text at h
  cases h with
  | word => cases htext
  | number hw =>
    subst htext
    obtain ⟨d, ds, -, heq | ⟨es, -, heq⟩⟩ := hw <;> cases heq
  | @operator op hop =>
    have hne : ∀ op ∈ Operator.table, op.spelling.toList ≠ [] := by decide
    exact hne op hop htext.symm
  | mark => cases htext

section Symbols

variable (hletter : isLetter c = false) (hdigit : c.isDigit = false)

include hletter hdigit

theorem not_tokenlike_pair {d : Char} (h : Operator.find? (String.ofList [c, d]) = none) :
    ¬ Tokenlike [c, d] := by
  intro ht
  obtain ⟨⟨op, hop, hspell⟩, -⟩ | ⟨hnil, -⟩ := ht.of_symbol hletter hdigit
  · exact not_operator_of_find? h hop hspell
  · cases hnil

theorem symbolAt_longest (h : symbolAt c cs = some (l, taken, rest)) :
    l.Spelled ∧ l.spelling.toList = taken ∧ ∀ d ∈ rest.head?, ¬ Tokenlike (taken ++ [d]) := by
  have hspell {op : Operator} {s : String} (hop : Operator.find? s = some op) :
      (Lexeme.operator op).Spelled ∧ op.spelling = s := by
    have heq := List.find?_some hop
    exact ⟨List.mem_of_find?_eq_some hop, beq_iff_eq.mp heq⟩
  by_cases hpair : ∀ d ∈ cs.head?, Operator.find? (String.ofList [c, d]) = none
  · rw [Cursor.symbolAt_alone hpair] at h
    split at h
    · rename_i op hop
      simp only [Option.some.injEq, Prod.mk.injEq] at h
      obtain ⟨rfl, rfl, rfl⟩ := h
      obtain ⟨hspelled, hop⟩ := hspell hop
      refine ⟨hspelled, ?_, fun d hd => not_tokenlike_pair hletter hdigit (hpair d hd)⟩
      simp [Lexeme.spelling, hop]
    · obtain ⟨m, hm, h⟩ := Option.map_eq_some_iff.mp h
      simp only [Prod.mk.injEq] at h
      obtain ⟨rfl, rfl, rfl⟩ := h
      have hm := List.find?_some hm
      refine ⟨trivial, ?_, fun d hd => not_tokenlike_pair hletter hdigit (hpair d hd)⟩
      simp [Lexeme.spelling, beq_iff_eq.mp hm]
  · cases cs with
    | nil => exact absurd (fun d hd => absurd hd (Option.not_mem_none d)) hpair
    | cons d cs =>
      have hop : ∃ op, Operator.find? (String.ofList [c, d]) = some op := by
        rw [← Option.ne_none_iff_exists']
        intro hnone
        exact hpair fun e he => Option.some.inj he ▸ hnone
      obtain ⟨op, hop⟩ := hop
      simp only [symbolAt, hop, Option.some.injEq, Prod.mk.injEq] at h
      obtain ⟨rfl, rfl, rfl⟩ := h
      obtain ⟨hspelled, hop⟩ := hspell hop
      refine ⟨hspelled, by rw [Lexeme.spelling, hop, String.toList_ofList], fun e he ht => ?_⟩
      obtain ⟨-, hlen⟩ | ⟨hnil, -⟩ := ht.of_symbol hletter hdigit
      · simp at hlen
      · cases hnil

theorem symbolAt_none (h : symbolAt c cs = none) (taken : List Char) (htaken : taken <+: c :: cs) :
    ¬ Tokenlike taken := by
  have hpair : ∀ d ∈ cs.head?, Operator.find? (String.ofList [c, d]) = none := by
    intro d hd
    cases cs with
    | nil => cases hd
    | cons e cs =>
      obtain rfl : e = d := Option.some.inj hd
      by_contra hop
      obtain ⟨op, hop⟩ := Option.ne_none_iff_exists'.mp hop
      simp only [symbolAt, hop, reduceCtorEq] at h
  rw [Cursor.symbolAt_alone hpair] at h
  split at h
  · cases h
  · rename_i hop
    rw [Option.map_eq_none_iff] at h
    cases taken with
    | nil => exact not_tokenlike_nil
    | cons e taken =>
      obtain ⟨rfl, hmore⟩ := List.cons_prefix_cons.mp htaken
      intro ht
      obtain ⟨⟨op, hmem, hspell⟩, hlen⟩ | ⟨rfl, m, rfl⟩ := ht.of_symbol hletter hdigit
      · obtain _ | ⟨d, _ | ⟨_, _⟩⟩ := taken
        · exact not_operator_of_find? hop hmem hspell
        · obtain ⟨more, rfl⟩ := hmore
          exact not_operator_of_find? (hpair d rfl) hmem hspell
        · simp at hlen
      · rw [Mark.find?, List.find?_eq_none] at h
        exact h m (by cases m <;> decide) (beq_self_eq_true _)

end Symbols

theorem tokenAt_longest (h : Cursor.tokenAt c cs = (.ok l, taken, rest)) :
    l.Spelled ∧ l.spelling.toList = taken ∧ ∀ d ∈ rest.head?, ¬ Tokenlike (taken ++ [d]) := by
  unfold Cursor.tokenAt at h
  split at h
  · rename_i hc
    simp only [Prod.mk.injEq, Except.ok.injEq] at h
    obtain ⟨rfl, rfl, rfl⟩ := h
    refine ⟨spelled_ofWord hc (List.all_eq_true.mp List.all_takeWhile), ?_, fun d hd ht => ?_⟩
    · rw [spelling_ofWord, String.toList_ofList]
    · have hword := ht.of_letter hc d (List.mem_append_right _ List.mem_cons_self)
      have hstop := List.head?_dropWhile_not isWordChar cs
      rw [Option.mem_def.mp hd] at hstop
      exact Bool.false_ne_true (hstop.symm.trans hword)
  · rename_i hletter
    rw [Bool.not_eq_true] at hletter
    split at h
    · rename_i hdigit
      dsimp only at h
      split at h
      · rename_i x hread
        simp only [Prod.mk.injEq, Except.ok.injEq] at h
        obtain ⟨rfl, rfl, rfl⟩ := h
        obtain ⟨ds, es, htext, hne, hds⟩ := splitNumber_text hdigit cs
        obtain ⟨d, rest, hcons, hd, hsplit⟩ := (Decimal.written_numberText hne hds).split
        rw [← htext] at hcons
        refine ⟨⟨hread, d, rest, ?_, hd, hsplit⟩, String.toList_ofList,
          splitNumber_longest hdigit cs⟩
        rw [String.toList_ofList, hcons]
      · cases (Prod.mk.inj h).1
    · rename_i hdigit
      split at h
      · rename_i hsymbol
        simp only [Prod.mk.injEq, Except.ok.injEq] at h
        obtain ⟨rfl, rfl, rfl⟩ := h
        exact symbolAt_longest hletter (by simpa using hdigit) hsymbol
      · cases (Prod.mk.inj h).1

theorem tokenAt_unreadable {cause : Cause} (hc : Visible c)
    (h : Cursor.tokenAt c cs = (.error cause, taken, rest)) : Unreadable (c :: cs) := by
  unfold Cursor.tokenAt at h
  split at h
  · cases (Prod.mk.inj h).1
  · rename_i hletter
    split at h
    · rename_i hdigit
      dsimp only at h
      split at h
      · cases (Prod.mk.inj h).1
      · rename_i hread
        obtain ⟨ds, es, htext, hne, hds⟩ := splitNumber_text hdigit cs
        rw [Decimal.read?, String.toList_ofList, htext] at hread
        have hover := Decimal.overflow_of_readChars hne hds hread
        have hlongest := splitNumber_longest hdigit cs
        rw [htext] at hlongest
        rw [← splitNumber_append false (c :: cs), htext]
        exact .number hne hds hlongest hover
    · rename_i hdigit
      split at h
      · cases (Prod.mk.inj h).1
      · exact .character hc (symbolAt_none (by simpa using hletter) (by simpa using hdigit) ‹_›)

/-! ## Whole sources -/

/-- The positions of tokens in a text that is woven from them and stands behind `before`. -/
def starts (before : List Char) : List Lexeme → List (List Char) → List Position
  | l :: ls, g :: gs => .behind (before ++ g) :: starts (before ++ g ++ l.spelling.toList) ls gs
  | _, _ => []

def Token.Longest (text : List Char) (t : Token) : Prop :=
  ∀ before c rest, text = before ++ t.lexeme.spelling.toList ++ c :: rest → t.pos = .behind before →
    ¬ Tokenlike (t.lexeme.spelling.toList ++ [c])

/-- A part of a text, behind `before`, that is woven from tokens. They have their exact positions,
and none could be longer. -/
structure Layout (text before part : List Char) (last : Bool) (ts : List Token)
    (gs : List (List Char)) :
    Prop where
  woven : Woven last part (ts.map Token.lexeme) gs
  placed : ts.map Token.pos = starts before (ts.map Token.lexeme) gs
  spelled : ∀ t ∈ ts, t.lexeme.Spelled
  longest : ∀ t ∈ ts, t.Longest text

theorem Layout.done {text before g : List Char} {last : Bool} (hg : Gap last g) :
    Layout text before g last [] [g] :=
  ⟨.done hg, rfl, List.forall_mem_nil _, List.forall_mem_nil _⟩

theorem Layout.token {text before g part rest : List Char} {last : Bool} {l : Lexeme}
    {ts : List Token}
    {gs : List (List Char)} (hg : Gap false g) (hl : l.Spelled)
    (hlong : ∀ d ∈ (part ++ rest).head?, ¬ Tokenlike (l.spelling.toList ++ [d]))
    (htext : text = before ++ g ++ l.spelling.toList ++ (part ++ rest))
    (h : Layout text (before ++ g ++ l.spelling.toList) part last ts gs) :
    Layout text before (g ++ l.spelling.toList ++ part) last (⟨l, .behind (before ++ g)⟩ :: ts)
    (g :: gs) where
  woven := .token hg h.woven
  placed := congrArg _ h.placed
  spelled := List.forall_mem_cons.mpr ⟨hl, h.spelled⟩
  longest := by
    refine List.forall_mem_cons.mpr ⟨?_, h.longest⟩
    intro before' c rest' htext' hpos
    dsimp only at htext' hpos
    -- The position tells where the token stands.
    rw [htext, List.append_assoc (before ++ g), List.append_assoc before'] at htext'
    obtain rfl := Position.behind_inj htext' hpos
    have hrest := List.append_cancel_left (List.append_cancel_left htext')
    exact hlong c (by rw [hrest]; rfl)

theorem Cursor.next_laid (before rest : List Char) :
    (Gap true rest ∧ ∃ cur, next { rest := rest, pos := .behind before } =
      (.ok ⟨.endOfInput, .behind (before ++ rest)⟩, cur)) ∨
    ∃ g tail, rest = g ++ tail ∧ Gap false g ∧
      ((∃ d cur, d.kind = .lexical ∧ d.pos = .behind (before ++ g) ∧ Unreadable tail ∧
        next { rest := rest, pos := .behind before } = (.error d, cur)) ∨
      ∃ l more, l.Spelled ∧ l.kind ≠ .endOfInput ∧ tail = l.spelling.toList ++ more ∧
        (∀ d ∈ more.head?, ¬ Tokenlike (l.spelling.toList ++ [d])) ∧
        next { rest := rest, pos := .behind before } = (.ok ⟨l, .behind (before ++ g)⟩,
          { rest := more, pos := .behind (before ++ g ++ l.spelling.toList) })) := by
  obtain ⟨g, hrest, hpos, hvisible, hgap⟩ := skipBlank_gap false (.behind before) rest
  rw [Position.after_behind] at hpos
  rcases hskip : skipBlank false (.behind before) rest with ⟨p, cs⟩
  rw [hskip] at hrest hpos hvisible hgap
  obtain rfl := hpos
  cases cs with
  | nil =>
    left
    rw [List.append_nil] at hrest
    subst hrest
    exact ⟨hgap, { rest := [], pos := .behind (before ++ rest) }, by simp [next, hskip]⟩
  | cons c cs =>
    right
    refine ⟨g, c :: cs, hrest, hgap, ?_⟩
    rcases hresult : tokenAt c cs with ⟨result, taken, more⟩
    cases result with
    | error cause =>
      left
      refine ⟨⟨.behind (before ++ g), cause⟩,
        { rest := more, pos := (Position.behind (before ++ g)).after taken },
        kind_of_tokenAt_error (by rw [hresult]), rfl, tokenAt_unreadable (hvisible c rfl) hresult,
          ?_⟩
      simp only [next, hskip, hresult]
    | ok l =>
      right
      obtain ⟨hspelled, hspelling, hlong⟩ := tokenAt_longest hresult
      have htaken := (tokenAt_taken c cs).2
      rw [hresult] at htaken
      subst hspelling
      refine ⟨l, more, hspelled, (scanned_tokenAt hresult).2, htaken.symm, hlong, ?_⟩
      simp only [next, hskip, hresult, Position.after_behind]

def Scan.LaidOut (text before rest : List Char) (s : Scan) : Prop := match s.failure with
  | none =>
    ∃ ts gs, s.tokens = ts ++ [⟨.endOfInput, .behind text⟩] ∧ Layout text before rest true ts gs
  | some d =>
    d.kind = .lexical ∧ ∃ part tail gs, rest = part ++ tail ∧ d.pos = .behind (before ++ part) ∧
      Unreadable tail ∧ Layout text before part false s.tokens gs

theorem Scan.LaidOut.token {text before g more : List Char} {l : Lexeme} {s : Scan}
    (hg : Gap false g)
    (hl : l.Spelled) (hlong : ∀ d ∈ more.head?, ¬ Tokenlike (l.spelling.toList ++ [d]))
    (htext : text = before ++ g ++ l.spelling.toList ++ more)
    (h : s.LaidOut text (before ++ g ++ l.spelling.toList) more) :
    LaidOut text before (g ++ l.spelling.toList ++ more)
      { tokens := ⟨l, .behind (before ++ g)⟩ :: s.tokens, failure := s.failure } := by
  obtain ⟨ts, failure⟩ := s
  cases failure with
  | none =>
    obtain ⟨us, gs, rfl, hlaid⟩ := h
    refine ⟨⟨l, .behind (before ++ g)⟩ :: us, g :: gs, rfl, ?_⟩
    rw [← List.append_nil more] at hlong htext
    exact .token hg hl hlong htext hlaid
  | some d =>
    obtain ⟨hkind, part, tail, gs, rfl, hpos, htail, hlaid⟩ := h
    refine ⟨hkind, g ++ l.spelling.toList ++ part, tail, g :: gs,
      (List.append_assoc ..).symm, ?_, htail,
      .token hg hl hlong htext hlaid⟩
    rw [hpos]
    simp only [List.append_assoc]

theorem Scan.laidOut_ofCursor (text before rest : List Char) (htext : text = before ++ rest) :
    (ofCursor { rest := rest, pos := .behind before }).LaidOut text before rest := by
  induction hn : rest.length using Nat.strongRecOn generalizing before rest with
  | ind n ih =>
    rcases Cursor.next_laid before rest with ⟨hgap, cur, hnext⟩ |
      ⟨g, tail, rfl, hgap, ⟨d, cur, hkind, hpos, htail, hnext⟩ | ⟨l, more, hl, hk, rfl,
        hlong, hnext⟩⟩
    · rw [ofCursor_of_end hnext rfl, ← htext]
      exact ⟨[], [rest], rfl, .done hgap⟩
    · rw [ofCursor_of_error hnext]
      exact ⟨hkind, g, tail, [g], rfl, hpos, htail, .done hgap⟩
    · obtain ⟨c, cs, hspell, -⟩ := hl.visible_cons
      have hlt : more.length < (g ++ (l.spelling.toList ++ more)).length := by
        rw [List.length_append, List.length_append, hspell, List.length_cons]
        omega
      rw [ofCursor_of_token hnext hk rfl hlt]
      rw [← List.append_assoc, ← List.append_assoc] at htext
      have hmore := ih _ (hn ▸ hlt) (before ++ g ++ l.spelling.toList) more htext rfl
      rw [← List.append_assoc]
      exact hmore.token hgap hl hlong htext

/-- Every source is its tokens and the gaps between them, in one way only, up to its end or to the
first place that cannot be read. -/
theorem scan_lossless (source : String) : match scan (.ofString source) with
    | .ok ts => ∃ us gs, ts = us ++ [⟨.endOfInput, .behind source.toList⟩] ∧
        Layout source.toList [] source.toList true us gs ∧
        ∀ hs, Woven true source.toList (us.map Token.lexeme) hs → hs = gs
    | .error d => d.kind = .lexical ∧ ∃ before rest us gs, source.toList = before ++ rest ∧
        d.pos = .behind before ∧ Layout source.toList [] before false us gs ∧ Unreadable rest := by
  have hlaid := Scan.laidOut_ofCursor source.toList [] source.toList rfl
  rw [show ({ rest := source.toList, pos := .behind [] } : Cursor) =
    .ofString source from rfl] at hlaid
  unfold scan
  dsimp only
  generalize Scan.ofCursor (.ofString source) = s at hlaid
  obtain ⟨ts, failure⟩ := s
  cases failure with
  | none =>
    obtain ⟨us, gs, hts, hlaid⟩ := hlaid
    refine ⟨us, gs, hts, hlaid, fun hs hwoven => hwoven.unique ?_ hlaid.woven⟩
    simpa using hlaid.spelled
  | some d =>
    obtain ⟨hkind, part, tail, gs, hsplit, hpos, htail, hlaid⟩ := hlaid
    exact ⟨hkind, part, tail, ts, gs, hsplit, hpos, hlaid, htail⟩

end RealScript
