import RealScript.Proofs.Tree.Completion
import RealScript.Repl

/-! # Incomplete programs

A program that does not parse is incomplete if and only if it parses with some text behind it. All
other programs that do not parse fail in the same way with any text behind them.
-/

namespace RealScript

variable {d : Diagnostic} {src : String}

def Lexeme.spellOut (ls : List Lexeme) : String :=
  String.ofList (ls.flatMap fun l => l.spelling.toList ++ [' '])

theorem Spells.spellOut {ls : List Lexeme} (h : ∀ l ∈ ls, l.Spelled) :
    Spells (Lexeme.spellOut ls).toList ls := by
  rw [Lexeme.spellOut, String.toList_ofList]
  induction ls with
  | nil => exact .nil
  | cons l ls ih =>
    rw [List.flatMap_cons, List.append_assoc]
    have hbreaks (cs : List Char) : Breaks (' ' :: cs) := by
      rintro c ⟨⟩
      decide
    refine .token (h l List.mem_cons_self) ((hbreaks _).parts l) (.blank (by decide) ?_)
    exact ih fun l hl => h l (List.mem_cons_of_mem _ hl)

theorem Diagnostic.not_incomplete_of_lexical (h : d.kind = .lexical) : d.incomplete = false := by
  obtain ⟨pos, cause⟩ := d
  cases cause <;> first | rfl | cases h

namespace Program

open Parse

theorem parse_newline (src more : String) : ∃ p, parse (src ++ "\n" ++ more) = ofScan
    ((Scan.ofCursor (.ofString src)).followedBy
    (Scan.ofCursor { rest := more.toList, pos := p })) := by
  refine ⟨_, congrArg ofScan (Eq.trans ?_ (Scan.ofCursor_newline (.ofString src) more.toList rfl))⟩
  simp [Cursor.ofString]

theorem ofScan_of_reads {s : Scan} (hne : s.tokens ≠ [])
    (hclosed : s.failure = none → (s.tokens.getLast hne).kind = .endOfInput) :
    ∃ st, Reads st s.tokens ∧ st.failure = s.failure ∧ ofScan s =
    (ampleProgram st).map Prod.fst := by
  obtain ⟨_ | ⟨t, rest⟩, failure⟩ := s
  · exact absurd rfl hne
  · exact ⟨⟨t, rest, failure⟩, ⟨rfl, hclosed⟩, rfl, ofScan_eq hclosed⟩

theorem ofScan_followedBy {l : List Token} {e : Token} (cur : Cursor) (hf : cur.failure = none)
    (hne : l ++ (Scan.ofCursor cur).tokens ≠ []) :
    ∃ st, Reads st (l ++ (Scan.ofCursor cur).tokens) ∧
      ofScan (Scan.followedBy { tokens := l ++ [e] } (Scan.ofCursor cur)) =
        (ampleProgram st).map Prod.fst := by
  have hscan : Scan.followedBy { tokens := l ++ [e] } (Scan.ofCursor cur) =
      { tokens := l ++ (Scan.ofCursor cur).tokens, failure := (Scan.ofCursor cur).failure } := by
    simp [Scan.followedBy]
  have hclosed : (Scan.ofCursor cur).failure = none →
      ((l ++ (Scan.ofCursor cur).tokens).getLast hne).kind = .endOfInput := by
    intro hnone
    rcases Scan.ofCursor_cases cur hf with ⟨d, -, hd, -⟩ | ⟨us, hus, -⟩
    · rw [hd] at hnone
      cases hnone
    · simp [hus, Token.kind, Lexeme.kind]
  obtain ⟨st, hst, -, h⟩ := ofScan_of_reads (s := ⟨l ++ (Scan.ofCursor cur).tokens, _⟩) hne hclosed
  rw [hscan]
  exact ⟨st, hst, h⟩

theorem parse_of_failure {f : Diagnostic} (hf : f.kind = .lexical)
    (hscan : (Scan.ofCursor (.ofString src)).failure = some f)
    (hinner : Inner (Scan.ofCursor (.ofString src)).tokens) (h : parse src = .error d) :
    d.incomplete = false := by
  have hf := Diagnostic.not_incomplete_of_lexical hf
  rw [parse, parseCursor] at h
  by_cases hne : (Scan.ofCursor (.ofString src)).tokens = []
  · rw [ofScan, hne, hscan] at h
    cases h
    exact hf
  · obtain ⟨st, hst, hfail, hparse⟩ := ofScan_of_reads hne fun hnone => by
      rw [hscan] at hnone
      cases hnone
    rw [hparse] at h
    have hst' := hst
    rw [← List.append_nil (Scan.tokens _)] at hst'
    have hcut := hfail.trans hscan
    cases (completes_program _ {}).tracks _ hinner (Nat.lt_succ_self _) with
    | accepts a rest hrest hk hgives hcut' =>
      by_cases hnil : rest = []
      · rw [hcut' hnil st f hst hcut] at h
        cases h
        exact hf
      · obtain ⟨t, ht, -⟩ := hgives st [] hst' (absurd · hnil)
        rw [ht] at h
        cases h
    | rejects d' hts hd herror =>
      rw [herror st [] hst'] at h
      cases h
      exact hd
    | wants d' fill hd herror hcut' hspelled hfill =>
      rw [hcut' st f hst hcut] at h
      cases h
      exact hf

theorem parse_error_cases (h : parse src = .error d) :
    (d.incomplete = false ∧ ∀ more, parse (src ++ "\n" ++ more) = .error d) ∨
    (d.incomplete = true ∧ ∃ more p, parse (src ++ "\n" ++ more) = .ok p) := by
  rcases Scan.ofCursor_cases (.ofString src) rfl with ⟨f, hf, hscan, hinner⟩ | ⟨ts, hscan, hinner⟩
  · left
    refine ⟨parse_of_failure hf hscan hinner h, fun more => ?_⟩
    obtain ⟨p, hmore⟩ := parse_newline src more
    rw [hmore, ← h, Scan.followedBy, hscan]
    rfl
  · have hread : ∃ st, Reads st (ts ++ [endAt (Cursor.ofString src).goal]) ∧
        parse src = (ampleProgram st).map Prod.fst := by
      obtain ⟨st, hst, -, hparse⟩ := ofScan_of_reads (s := Scan.ofCursor (.ofString src))
        (by simp [hscan]) (by simp [hscan, Token.kind, Lexeme.kind])
      rw [hscan] at hst
      exact ⟨st, hst, hparse⟩
    obtain ⟨st, hst, hparse⟩ := hread
    rw [hparse] at h
    cases (completes_program _ (Cursor.ofString src).goal).tracks ts hinner
      (Nat.lt_succ_self _) with
    | accepts a rest hrest hk hgives _ =>
      obtain ⟨t, ht, -⟩ := hgives st _ hst fun _ => .inl ⟨_, [], rfl, rfl⟩
      rw [ht] at h
      cases h
    | rejects d' hts hd herror =>
      left
      rw [herror st _ hst] at h
      cases h
      refine ⟨hd, fun more => ?_⟩
      obtain ⟨p, hmore⟩ := parse_newline src more
      obtain ⟨st', hst', hparse'⟩ := ofScan_followedBy (l := ts)
        (e := endAt (Cursor.ofString src).goal) { rest := more.toList, pos := p } rfl
          (by simp [hts])
      rw [hmore, hscan]
      exact hparse'.trans (by rw [herror st' _ hst']; rfl)
    | wants d' fill hd herror _ hspelled hfill =>
      right
      rw [herror st hst] at h
      cases h
      refine ⟨hd, Lexeme.spellOut fill, ?_⟩
      obtain ⟨p, hmore⟩ := parse_newline src (Lexeme.spellOut fill)
      obtain ⟨cs, e', hcs, hlexemes, he'⟩ := (Spells.spellOut hspelled).scan p
      obtain ⟨st', hst', hparse'⟩ := ofScan_followedBy (l := ts)
        (e := endAt (Cursor.ofString src).goal) { rest := (Lexeme.spellOut fill).toList, pos := p }
        rfl (by simp [hcs])
      rw [hcs] at hst'
      obtain ⟨a, t, ht, -⟩ := hfill st' cs [e'] hlexemes ⟨e', [], rfl, he'⟩ hst'
      refine ⟨a, ?_⟩
      rw [hmore, hscan]
      exact hparse'.trans (by rw [ht]; rfl)

end Program

namespace Repl

def gather (src line : String) : String := if src = "" then line else src ++ "\n" ++ line

def promptFor (s : Session) (src : String) : String :=
  if src = "" then s.settings.prompt else s.settings.continuationPrompt

def AsksAgain (s : Session) (src : String) : Prop :=
  ∃ events, (readChunk (s.world.answers.length + 1) s src).2.world.events.toList =
    s.world.events.toList ++ .prompt (promptFor s src) :: .prompt
      s.settings.continuationPrompt :: events

theorem readChunk_of_error {s : Session} {line : String} {answers : List Answer}
    (hline : s.world.answers = .line line :: answers)
    (h : Program.parse (gather src line) = .error d) (fuel : Nat) :
    readChunk (fuel + 1) s src =
      let s' :=
      { s with world := { s.world.emit (.prompt (promptFor s src)) with answers := answers } }
      if d.incomplete then readChunk fuel s' (gather src line)
      else (.broken (gather src line) (.diagnostic d), s') := by
  have hask : s.world.ask (promptFor s src) =
      (.ok line, { s.world.emit (.prompt (promptFor s src)) with answers := answers }) := by
    simp only [World.ask, World.emit, hline]
  rw [promptFor] at hask
  rw [gather] at h
  simp only [readChunk, hask, h]
  rfl

theorem events_readChunk_succ {fuel : Nat} (ih : ∀ s src, ∃ events,
    (readChunk fuel s src).2.world.events.toList = s.world.events.toList ++ events)
    (s : Session) (src : String) :
    ∃ events, (readChunk (fuel + 1) s src).2.world.events.toList =
      s.world.events.toList ++ .prompt (promptFor s src) :: events := by
  cases hanswers : s.world.answers with
  | nil => exact ⟨[], by simp [readChunk, World.ask, World.emit, hanswers, promptFor]⟩
  | cons answer answers =>
    cases answer with
    | aborted => exact ⟨[], by simp [readChunk, World.ask, World.emit, hanswers, promptFor]⟩
    | failed text => exact ⟨[], by simp [readChunk, World.ask, World.emit, hanswers, promptFor]⟩
    | line line =>
      cases hparse : Program.parse (gather src line) with
      | ok p =>
        rw [gather] at hparse
        exact ⟨[], by simp [readChunk, World.ask, World.emit, hanswers, promptFor, hparse]⟩
      | error d =>
        rw [readChunk_of_error hanswers hparse]
        dsimp only
        split
        · obtain ⟨events, h⟩ := ih _ (gather src line)
          exact ⟨events, by rw [h]; simp [World.emit]⟩
        · exact ⟨[], by simp [World.emit]⟩

theorem events_readChunk (fuel : Nat) (s : Session) (src : String) : ∃ events,
    (readChunk fuel s src).2.world.events.toList = s.world.events.toList ++ events := by
  induction fuel generalizing s src with
  | zero => exact ⟨[], (List.append_nil _).symm⟩
  | succ fuel ih =>
    obtain ⟨events, h⟩ := events_readChunk_succ ih s src
    exact ⟨_, h⟩

theorem asksAgain_iff {s : Session} {line : String} {answers : List Answer}
    (hline : s.world.answers = .line line :: answers)
    (h : Program.parse (gather src line) = .error d) : AsksAgain s src ↔ d.incomplete = true := by
  have hne : gather src line ≠ "" := by
    intro hnil
    rw [hnil] at h
    cases h
  unfold AsksAgain
  rw [readChunk_of_error hline h]
  constructor
  · rintro ⟨events, hevents⟩
    cases hd : d.incomplete with
    | true => rfl
    | false => simp [hd, World.emit] at hevents
  · intro hd
    simp only [hd, if_true, hline, List.length_cons]
    obtain ⟨events, h⟩ := events_readChunk_succ (events_readChunk answers.length)
      { s with world := { s.world.emit (.prompt (promptFor s src)) with answers := answers } }
      (gather src line)
    refine ⟨events, ?_⟩
    rw [h]
    simp [World.emit, promptFor, hne]

end Repl

/-- Whether a program that does not parse is incomplete says what any text behind it can do, and so
a line is asked for again exactly if some text can complete those that were gathered. -/
theorem Program.incomplete_exact {src : String} {d : Diagnostic} (h : parse src = .error d) :
    (d.incomplete = false → ∀ more, parse (src ++ "\n" ++ more) = .error d) ∧
    (d.incomplete = true → ∃ more p, parse (src ++ "\n" ++ more) = .ok p) ∧
    ∀ (s : Session) (before line : String) (answers : List Answer),
      s.world.answers = .line line :: answers → Repl.gather before line = src →
      (Repl.AsksAgain s before ↔ ∃ more p, parse (src ++ "\n" ++ more) = .ok p) := by
  have hasks (s : Session) (before line : String) (answers : List Answer)
      (hline : s.world.answers = .line line :: answers) (hsrc : Repl.gather before line = src) :
      Repl.AsksAgain s before ↔ d.incomplete = true :=
    Repl.asksAgain_iff hline (hsrc ▸ h)
  rcases parse_error_cases h with ⟨hd, hmore⟩ | ⟨hd, hmore⟩
  · refine ⟨fun _ => hmore, fun hd' => by simp [hd] at hd', ?_⟩
    intro s before line answers hline hsrc
    rw [hasks s before line answers hline hsrc]
    simp [hd, hmore]
  · refine ⟨fun hd' => by simp [hd] at hd', fun _ => hmore, ?_⟩
    intro s before line answers hline hsrc
    rw [hasks s before line answers hline hsrc]
    exact iff_of_true hd hmore

theorem Program.incomplete_exact_conditional :
    let d : Diagnostic :=
      ⟨⟨1, 7⟩, .unterminated ⟨.keyword .ifThen, ⟨1, 1⟩⟩ [.keyword .orElse, .keyword .done]⟩
    parse "if x y" = .error d ∧ ∃ more p, parse ("if x y" ++ "\n" ++ more) = .ok p := by
  intro d
  have h : parse "if x y" = .error d := by cbv
  exact ⟨h, (incomplete_exact h).2.1 rfl⟩

end RealScript
