import RealScript.Proofs.Tree.Grammar

/-! # Scanning line by line

No token goes on behind a line end. So a text, a line end and more text have the tokens of the first
text and then those of the second, from the line behind on, and a failure in the first text is one
whatever comes behind it.
-/

namespace RealScript

theorem Position.after_append (p : Position) (cs ds : List Char) :
    p.after (cs ++ ds) = (p.after cs).after ds := List.foldl_append ..

theorem skipBlank_after (inComment : Bool) (p : Position) (cs : List Char) :
    (skipBlank inComment p cs).1.after (skipBlank inComment p cs).2 = p.after cs := by
  fun_induction skipBlank inComment p cs with
  | case1 => rfl
  | case2 p c cs ih => exact ih
  | case3 p c cs hblank ih => exact ih
  | case4 p cs hblank ih => exact ih
  | case5 p c cs hblank hmark => rfl

theorem length_skipBlank_le (inComment : Bool) (p : Position) (cs : List Char) :
    (skipBlank inComment p cs).2.length ≤ cs.length := by
  fun_induction skipBlank inComment p cs with
  | case1 => exact Nat.le_refl _
  | case2 p c cs ih => exact Nat.le_succ_of_le ih
  | case3 p c cs hblank ih => exact Nat.le_succ_of_le ih
  | case4 p cs hblank ih => exact Nat.le_succ_of_le ih
  | case5 p c cs hblank hmark => exact Nat.le_refl _

theorem skipBlank_append {inComment : Bool} {p q : Position} {cs ds : List Char} {c : Char}
    (h : skipBlank inComment p cs = (q, c :: ds)) (more : List Char) :
    skipBlank inComment p (cs ++ more) = (q, c :: ds ++ more) := by
  fun_induction skipBlank inComment p cs with
  | case1 => cases h
  | case2 p d cs ih => simpa [skipBlank] using ih h
  | case3 p d cs hblank ih => simpa [skipBlank, hblank] using ih h
  | case4 p cs hblank ih => simpa [skipBlank, hblank] using ih h
  | case5 p d cs hblank hmark =>
    obtain ⟨rfl, hcs⟩ := Prod.mk.inj h
    obtain ⟨rfl, rfl⟩ := List.cons.inj hcs
    simp [skipBlank, hblank, hmark]

theorem skipBlank_append_newline {inComment : Bool} {p q : Position} {cs : List Char}
    (h : skipBlank inComment p cs = (q, [])) (more : List Char) :
    skipBlank inComment p (cs ++ '\n' :: more) = skipBlank false (q.step '\n') more := by
  fun_induction skipBlank inComment p cs with
  | case1 inComment p =>
    obtain ⟨rfl, -⟩ := Prod.mk.inj h
    cases inComment
    · have hblank : Text.isBlank '\n' = true := by decide
      simp [skipBlank, hblank]
    · simp [skipBlank]
  | case2 p d cs ih => simpa [skipBlank] using ih h
  | case3 p d cs hblank ih => simpa [skipBlank, hblank] using ih h
  | case4 p cs hblank ih => simpa [skipBlank, hblank] using ih h
  | case5 p d cs hblank hmark => cases (Prod.mk.inj h).2

theorem takeWhile_append_cons {p : Char → Bool} {d : Char} (hd : p d = false)
    (cs more : List Char) :
    (cs ++ d :: more).takeWhile p = cs.takeWhile p := by
  induction cs with
  | nil => simp [hd]
  | cons c cs ih => cases hc : p c <;> simp [hc, ih]

theorem dropWhile_append_cons {p : Char → Bool} {d : Char} (hd : p d = false)
    (cs more : List Char) :
    (cs ++ d :: more).dropWhile p = cs.dropWhile p ++ d :: more := by
  induction cs with
  | nil => simp [hd]
  | cons c cs ih => cases hc : p c <;> simp [hc, ih]

theorem splitNumber_append_cons {d : Char} (hd : d.isDigit = false) (hpoint : d ≠ '.')
    (seenPoint : Bool) (cs more : List Char) :
    splitNumber seenPoint (cs ++ d :: more) =
      ((splitNumber seenPoint cs).1, (splitNumber seenPoint cs).2 ++ d :: more) := by
  fun_induction splitNumber seenPoint cs with
  | case1 => simp [splitNumber, hd, hpoint]
  | case2 seenPoint c cs hdigit text rest hs ih => simp_all [splitNumber]
  | case3 seenPoint c cs hdigit hc text rest hs ih => simp_all [splitNumber]
  | case4 seenPoint c cs hdigit hc => simp_all [splitNumber]

theorem splitNumber_append (seenPoint : Bool) (cs : List Char) :
    (splitNumber seenPoint cs).1 ++ (splitNumber seenPoint cs).2 = cs := by
  fun_induction splitNumber seenPoint cs <;> simp_all

theorem symbolAt_taken {c : Char} {cs taken rest : List Char} {l : Lexeme}
    (h : symbolAt c cs = some (l, taken, rest)) : taken ≠ [] ∧ taken ++ rest = c :: cs := by
  unfold symbolAt at h
  extract_lets one at h
  have hone : one = some (l, taken, rest) → taken ≠ [] ∧ taken ++ rest = c :: cs := by
    intro h
    dsimp only [one] at h
    split at h
    · obtain ⟨-, h⟩ := Prod.mk.inj (Option.some.inj h)
      cases h
      exact ⟨List.cons_ne_nil _ _, rfl⟩
    · obtain ⟨m, -, h⟩ := Option.map_eq_some_iff.mp h
      obtain ⟨-, h⟩ := Prod.mk.inj h
      cases h
      exact ⟨List.cons_ne_nil _ _, rfl⟩
  split at h
  · split at h
    · obtain ⟨-, h⟩ := Prod.mk.inj (Option.some.inj h)
      cases h
      exact ⟨List.cons_ne_nil _ _, rfl⟩
    · exact hone h
  · exact hone h

theorem Operator.find?_newline (c : Char) : Operator.find? (String.ofList [c, '\n']) = none := by
  have hsecond : ∀ o ∈ Operator.table, o.spelling.toList[1]? ≠ some '\n' := by decide
  rw [Operator.find?, List.find?_eq_none]
  intro o ho heq
  apply hsecond o ho
  rw [beq_iff_eq.mp heq]
  simp

theorem symbolAt_append_newline (c : Char) (cs more : List Char) : symbolAt c (cs ++ '\n' :: more) =
      (symbolAt c cs).map fun (l, taken, rest) => (l, taken, rest ++ '\n' :: more) := by
  cases cs with
  | nil =>
    simp only [symbolAt, List.nil_append, Operator.find?_newline]
    split
    · rfl
    · cases Mark.find? c <;> rfl
  | cons d cs =>
    simp only [symbolAt, List.cons_append]
    split
    · rfl
    · split
      · rfl
      · cases Mark.find? c <;> rfl

namespace Cursor

theorem tokenAt_taken (c : Char) (cs : List Char) :
    (tokenAt c cs).2.1 ≠ [] ∧ (tokenAt c cs).2.1 ++ (tokenAt c cs).2.2 = c :: cs := by
  unfold tokenAt
  split
  · simp
  · split
    · rename_i hdigit
      have hne : (splitNumber false (c :: cs)).1 ≠ [] := by simp [splitNumber, hdigit]
      dsimp only
      split <;> exact ⟨hne, splitNumber_append false (c :: cs)⟩
    · split
      · exact symbolAt_taken ‹_›
      · exact ⟨List.cons_ne_nil _ _, rfl⟩

theorem kind_of_tokenAt_error {c : Char} {cs : List Char} {cause : Cause}
    (h : (tokenAt c cs).1 = .error cause) : cause.kind = .lexical := by
  unfold tokenAt at h
  split at h
  · cases h
  · split at h
    · dsimp only at h
      split at h <;> cases h
      rfl
    · split at h <;> cases h
      rfl

theorem tokenAt_append_newline (c : Char) (cs more : List Char) : tokenAt c (cs ++ '\n' :: more) =
      ((tokenAt c cs).1, (tokenAt c cs).2.1, (tokenAt c cs).2.2 ++ '\n' :: more) := by
  have hword : isWordChar '\n' = false := by decide
  unfold tokenAt
  split
  · rw [takeWhile_append_cons hword, dropWhile_append_cons hword]
  · split
    · have hsplit := splitNumber_append_cons (d := '\n') (by decide) (by decide) false
        (c :: cs) more
      rw [List.cons_append] at hsplit
      rw [hsplit]
      dsimp only
      split <;> rfl
    · rw [symbolAt_append_newline]
      cases symbolAt c cs <;> rfl

def goal (cur : Cursor) : Position := cur.pos.after cur.rest

theorem next_cases (cur : Cursor) (more : List Char) (hf : cur.failure = none) :
    (cur.next = (.ok ⟨.endOfInput, cur.goal⟩, { cur with rest := [], pos := cur.goal }) ∧
      next { cur with rest := cur.rest ++ '\n' :: more } =
        next { cur with rest := more, pos := cur.goal.step '\n' }) ∨
    (∃ d u v, d.kind = .lexical ∧ cur.next = (.error d, u) ∧
      next { cur with rest := cur.rest ++ '\n' :: more } = (.error d, v)) ∨
    ∃ t p rest, t.kind ≠ .endOfInput ∧ p.after rest = cur.goal ∧ rest.length < cur.rest.length ∧
      cur.next = (.ok t, { cur with rest := rest, pos := p }) ∧
      next { cur with rest := cur.rest ++ '\n' :: more } =
        (.ok t, { cur with rest := rest ++ '\n' :: more, pos := p }) := by
  rcases hskip : skipBlank false cur.pos cur.rest with ⟨q, cs⟩
  have hgoal : q.after cs = cur.goal := by
    have := skipBlank_after false cur.pos cur.rest
    rwa [hskip] at this
  cases cs with
  | nil =>
    left
    obtain rfl : q = cur.goal := hgoal
    have hmore := skipBlank_append_newline hskip more
    constructor
    · simp [next, hskip, hf]
    · simp only [next, hmore]
  | cons c cs =>
    right
    have hmore := skipBlank_append hskip ('\n' :: more)
    have htoken := tokenAt_append_newline c cs more
    obtain ⟨hne, htaken⟩ := tokenAt_taken c cs
    rw [List.cons_append] at hmore
    rcases hresult : tokenAt c cs with ⟨result, taken, rest⟩
    rw [hresult] at htoken hne htaken
    cases result with
    | error cause =>
      left
      refine ⟨⟨q, cause⟩, { cur with rest := rest, pos := q.after taken },
        { cur with rest := rest ++ '\n' :: more, pos := q.after taken }, ?_, ?_, ?_⟩
      · exact kind_of_tokenAt_error (by rw [hresult])
      · simp [next, hskip, hresult]
      · simp [next, hmore, htoken]
    | ok l =>
      right
      refine ⟨⟨l, q⟩, q.after taken, rest, (scanned_tokenAt hresult).2, ?_, ?_, ?_, ?_⟩
      · rw [← Position.after_append, htaken, hgoal]
      · have hle := length_skipBlank_le false cur.pos cur.rest
        rw [hskip, ← htaken, List.length_append] at hle
        have := List.length_pos_iff.mpr hne
        dsimp only at hle this
        omega
      · simp [next, hskip, hresult]
      · simp [next, hmore, htoken]

end Cursor

namespace Scan

theorem run_eq {cur : Cursor} (hf : cur.failure = none) {m n : Nat} (hm : cur.rest.length < m)
    (hn : cur.rest.length < n) : run m cur = run n cur := by
  induction m generalizing cur n with
  | zero => omega
  | succ m ih =>
    cases n with
    | zero => omega
    | succ n =>
      rcases cur.next_cases [] hf with ⟨h, -⟩ | ⟨d, u, -, -, h, -⟩ | ⟨t, p, rest, hk, -, hlt, h, -⟩
      · simp only [run, h, Token.kind, Lexeme.kind, if_true]
      · simp only [run, h]
      · have := @ih { cur with rest := rest, pos := p } hf n (by dsimp only; omega)
          (by dsimp only; omega)
        simp only [run, h, this]

variable {cur cur' : Cursor}

theorem ofCursor_of_end {t : Token} (h : cur.next = (.ok t, cur')) (hk : t.kind = .endOfInput) :
    ofCursor cur = { tokens := [t] } := by
  simp [ofCursor, run, h, hk]

theorem ofCursor_of_error {d : Diagnostic} (h : cur.next = (.error d, cur')) :
    ofCursor cur = { tokens := [], failure := some d } := by
  simp [ofCursor, run, h]

theorem ofCursor_of_token {t : Token} (h : cur.next = (.ok t, cur')) (hk : t.kind ≠ .endOfInput)
    (hf : cur'.failure = none) (hlt : cur'.rest.length < cur.rest.length) :
    ofCursor cur =
    { tokens := t :: (ofCursor cur').tokens, failure := (ofCursor cur').failure } := by
  have hrun := run_eq hf hlt (Nat.lt_succ_self _)
  simp only [ofCursor, run, h, hk, if_false, hrun]

theorem ofCursor_congr (h : cur.next = cur'.next) (hf : cur'.failure = none)
    (hle : cur'.rest.length ≤ cur.rest.length) : ofCursor cur = ofCursor cur' := by
  rcases cur'.next_cases [] hf with ⟨h', -⟩ | ⟨d, u, -, -, h', -⟩ | ⟨t, p, rest, hk, -, hlt, h', -⟩
  · rw [ofCursor_of_end h' rfl, ofCursor_of_end (h.trans h') rfl]
  · rw [ofCursor_of_error h', ofCursor_of_error (h.trans h')]
  · rw [ofCursor_of_token h' hk hf hlt, ofCursor_of_token (h.trans h') hk hf
      (Nat.lt_of_lt_of_le hlt hle)]

theorem ofCursor_cases (cur : Cursor) (hf : cur.failure = none) :
    (∃ d, d.kind = .lexical ∧ (ofCursor cur).failure = some d ∧
      ∀ t ∈ (ofCursor cur).tokens, t.kind ≠ .endOfInput) ∨
    ∃ ts, ofCursor cur = { tokens := ts ++ [⟨.endOfInput, cur.goal⟩] } ∧
      ∀ t ∈ ts, t.kind ≠ .endOfInput := by
  induction hn : cur.rest.length using Nat.strongRecOn generalizing cur with
  | ind n ih =>
    rcases cur.next_cases [] hf with ⟨h, -⟩ | ⟨d, u, -, hd, h, -⟩ | ⟨t, p, rest, hk, hp, hlt, h, -⟩
    · right
      rw [ofCursor_of_end h rfl]
      exact ⟨[], rfl, by simp⟩
    · left
      rw [ofCursor_of_error h]
      exact ⟨d, hd, rfl, by simp⟩
    · rw [ofCursor_of_token h hk hf hlt]
      rcases ih _ (hn ▸ hlt) { cur with rest := rest, pos := p } hf rfl with
        ⟨d, hkind, hd, hts⟩ | ⟨ts, hts, hall⟩
      · left
        exact ⟨d, hkind, hd, by simpa using ⟨hk, hts⟩⟩
      · right
        refine ⟨t :: ts, ?_, by simpa using ⟨hk, hall⟩⟩
        rw [hts, Cursor.goal, hp]
        rfl

def followedBy (s t : Scan) : Scan := match s.failure with
  | some _ => s
  | none => { tokens := s.tokens.dropLast ++ t.tokens, failure := t.failure }

theorem followedBy_cons {t : Token} {s u : Scan} (h : s.failure = none → s.tokens ≠ []) :
    followedBy { tokens := t :: s.tokens, failure := s.failure } u =
      { tokens := t :: (s.followedBy u).tokens, failure := (s.followedBy u).failure } := by
  rcases s with ⟨_ | ⟨x, xs⟩, _ | d⟩
  · exact absurd rfl (h rfl)
  · rfl
  · rfl
  · rfl

theorem ofCursor_newline (cur : Cursor) (more : List Char) (hf : cur.failure = none) :
    ofCursor { cur with rest := cur.rest ++ '\n' :: more } = (ofCursor cur).followedBy
      (ofCursor { cur with rest := more, pos := cur.goal.step '\n' }) := by
  induction hn : cur.rest.length using Nat.strongRecOn generalizing cur with
  | ind n ih =>
    rcases cur.next_cases more hf with ⟨h, hmore⟩ | ⟨d, u, v, -, h, hmore⟩ |
      ⟨t, p, rest, hk, hp, hlt, h, hmore⟩
    · rw [ofCursor_of_end h rfl, ofCursor_congr hmore hf (by simp; omega)]
      rfl
    · rw [ofCursor_of_error h, ofCursor_of_error hmore]
      rfl
    · have hrest := ih _ (hn ▸ hlt) { cur with rest := rest, pos := p } hf rfl
      have hne : (ofCursor { cur with rest := rest, pos := p }).failure = none →
          (ofCursor { cur with rest := rest, pos := p }).tokens ≠ [] := by
        intro hnone
        rcases ofCursor_cases { cur with rest := rest, pos := p } hf with ⟨d, -, hd,
          -⟩ | ⟨ts, hts, -⟩
        · rw [hnone] at hd
          cases hd
        · rw [hts]
          simp
      rw [ofCursor_of_token h hk hf hlt, followedBy_cons hne,
        ofCursor_of_token hmore hk hf (by simpa using hlt), hrest]
      simp only [Cursor.goal, hp]

end Scan

end RealScript
