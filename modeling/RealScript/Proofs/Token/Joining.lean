import RealScript.Proofs.Token.Lines

/-! # Texts joined at a line end

What is read from a text does not depend on the line where the text starts, but for the lines in the
positions. So a text behind another one and a line end has its own tokens, further down.
-/

namespace RealScript

def Position.down (n : Nat) (p : Position) : Position := { p with line := p.line + n }

def Token.down (n : Nat) (t : Token) : Token := { t with pos := t.pos.down n }

def Diagnostic.down (n : Nat) (d : Diagnostic) : Diagnostic := { d with pos := d.pos.down n }

def Cursor.down (n : Nat) (cur : Cursor) : Cursor := { cur with pos := cur.pos.down n }

def Scan.down (n : Nat) (s : Scan) : Scan :=
  { tokens := s.tokens.map (Token.down n), failure := s.failure.map (Diagnostic.down n) }

variable (n : Nat)

theorem Position.step_down (p : Position) (c : Char) : (p.down n).step c = (p.step c).down n := by
  unfold step down
  split
  · simp only [Position.mk.injEq, and_true]
    omega
  · rfl

theorem Position.after_down (p : Position) (cs : List Char) :
    (p.down n).after cs = (p.after cs).down n := by
  induction cs generalizing p with
  | nil => rfl
  | cons c cs ih =>
    change ((p.down n).step c).after cs = ((p.step c).after cs).down n
    rw [step_down, ih]

theorem Position.line_after (p : Position) (cs : List Char) :
    (p.after cs).line = p.line + cs.count '\n' := by
  induction cs generalizing p with
  | nil => simp [after]
  | cons c cs ih =>
    change ((p.step c).after cs).line = _
    rw [ih, List.count_cons]
    unfold step
    by_cases hc : c = '\n' <;> simp [hc]
    omega

theorem skipBlank_down (inComment : Bool) (p : Position) (cs : List Char) :
    skipBlank inComment (p.down n) cs =
      ((skipBlank inComment p cs).1.down n, (skipBlank inComment p cs).2) := by
  fun_induction skipBlank inComment p cs with
  | case1 => simp [skipBlank]
  | case2 p c cs ih => rw [skipBlank, Position.step_down, ih]
  | case3 p c cs hblank ih => rw [skipBlank, if_pos hblank, Position.step_down, ih]
  | case4 p cs hblank ih => rw [skipBlank, if_neg hblank, if_pos rfl, Position.step_down, ih]
  | case5 p c cs hblank hmark => rw [skipBlank, if_neg hblank, if_neg hmark]

theorem Cursor.next_down (cur : Cursor) : (cur.down n).next =
    ((cur.next.1.map (Token.down n)).mapError (Diagnostic.down n), cur.next.2.down n) := by
  have hskip := skipBlank_down n false cur.pos cur.rest
  rcases hs : skipBlank false cur.pos cur.rest with ⟨q, cs⟩
  rw [hs] at hskip
  cases cs with
  | nil => cases hf : cur.failure <;> simp only [next, down, hskip, hs, hf] <;> rfl
  | cons c cs =>
    rcases ht : tokenAt c cs with ⟨l | l, taken, rest⟩ <;>
      simp only [next, down, hskip, hs, ht, Position.after_down] <;> rfl

namespace Scan

theorem run_down (fuel : Nat) (cur : Cursor) : run fuel (cur.down n) = (run fuel cur).down n := by
  induction fuel generalizing cur with
  | zero => rfl
  | succ fuel ih =>
    rw [run, run, cur.next_down]
    rcases cur.next with ⟨d | t, cur'⟩
    · rfl
    · change (if t.kind = .endOfInput then _ else _) = _
      dsimp only
      split
      · rfl
      · rw [ih]
        rfl

theorem ofCursor_down (cur : Cursor) : ofCursor (cur.down n) = (ofCursor cur).down n :=
  run_down n _ cur

end Scan

theorem goal_step_newline (s : String) : (Cursor.ofString s).goal.step '\n' =
    Position.down (1 + s.toList.count '\n') {} := by
  have hline := Position.line_after {} s.toList
  simp only [Position.step, if_true, Position.down, Position.mk.injEq, and_true]
  change (Position.after {} s.toList).line + 1 = _
  rw [hline]
  push_cast
  omega

/-- A text, a line end and another text have the tokens of the first, but for its end, and then
those of the second, as many lines further down as the first text and the line end take. The first
failure in the texts is the failure of both. -/
theorem scan_newline (a b : String) : match scan (.ofString a) with
    | .error d => scan (.ofString (a ++ "\n" ++ b)) = .error d
    | .ok ts => ∃ us last, ts = us ++ [last] ∧ last.kind = .endOfInput ∧
        (∀ t ∈ us, t.kind ≠ .endOfInput) ∧
        scan (.ofString (a ++ "\n" ++ b)) = match scan (.ofString b) with
          | .error d => .error (d.down (1 + a.toList.count '\n'))
          | .ok vs => .ok (us ++ vs.map (Token.down (1 + a.toList.count '\n'))) := by
  have hjoin : Scan.ofCursor (.ofString (a ++ "\n" ++ b)) = (Scan.ofCursor (.ofString a)).followedBy
      ((Scan.ofCursor (.ofString b)).down (1 + a.toList.count '\n')) := by
    have h := Scan.ofCursor_newline (.ofString a) b.toList rfl
    rw [goal_step_newline] at h
    rw [← Scan.ofCursor_down]
    simpa [Cursor.ofString, Cursor.down] using h
  simp only [scan, hjoin]
  rcases Scan.ofCursor_cases (.ofString a) rfl with ⟨d, -, hd, -⟩ | ⟨us, hus, hkinds⟩
  · simp only [Scan.followedBy, hd]
  · rw [hus]
    refine ⟨us, _, rfl, rfl, hkinds, ?_⟩
    rcases Scan.ofCursor (.ofString b) with ⟨vs, - | d⟩ <;> simp [Scan.followedBy, Scan.down]

end RealScript
