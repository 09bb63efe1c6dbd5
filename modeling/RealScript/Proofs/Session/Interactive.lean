import RealScript.Proofs.Machine.Dialogue
import RealScript.Proofs.Session.TypeSound
import RealScript.Proofs.Tree.Incomplete

/-! # Interactive sessions

The answers to the prompts are cut into chunks. A chunk ends with the first line that leaves it
complete or beyond repair; an abort drops it. A session goes through the chunks one by one, shows a
prompt for each line, runs the chunks that are programs and reports those that are not.
-/

namespace RealScript

theorem Action.Modest.mute {a : Action} (h : a.Modest) : a.Mute := by
  induction h with
  | done | notFunction => trivial
  | call _ ih =>
    rintro (e | v)
    · trivial
    · exact ih v
  | proceed _ ih | enterPool _ ih | write _ ih => exact ih

namespace Session

variable {s t : Session}

/-- The way from one session to another, on which no answer is taken without a call of `read`. -/
def Follows (s t : Session) : Prop := t.settings = s.settings ∧ s.world.Follows t.world

theorem Follows.refl (s : Session) : s.Follows s := ⟨rfl, .refl _⟩

theorem Follows.trans {u : Session} (h : s.Follows t) (h' : t.Follows u) : s.Follows u :=
  ⟨h'.1.trans h.1, h.2.trans h'.2⟩

theorem follows_emit (s : Session) {e : Event} (h : e.isDialogue = false) : s.Follows (s.emit e) :=
  ⟨rfl, s.world.follows_emit h⟩

theorem follows_log (s : Session) (r : LogRecord) : s.Follows (s.log r) := by
  unfold log
  split
  · exact .refl s
  · exact s.follows_emit rfl
  · split
    · exact s.follows_emit rfl
    · exact .refl s

theorem follows_report (s : Session) (name : String) (e : SessionError) :
    s.Follows (s.report name e) :=
  s.follows_emit rfl

theorem follows_foldl {f : Session → FuncRef → Session} (hf : ∀ (s : Session) r, s.Follows (f s r))
    (s : Session) (rs : List FuncRef) : s.Follows (rs.foldl f s) := by
  induction rs generalizing s with
  | nil => exact .refl s
  | cons r rs ih => exact (hf s r).trans (ih _)

theorem follows_optimize (s : Session) (r : FuncRef) : s.Follows (s.optimize r) := by
  unfold optimize
  split
  · exact .refl s
  · exact follows_log (s.setModule _) _

theorem follows_dump (s : Session) (r : FuncRef) : s.Follows (s.dump r) := by
  unfold dump
  split
  · exact .refl s
  · exact s.follows_emit rfl

theorem follows_runUnit (s : Session) (cancelled : Bool) (u : CodeUnit) :
    s.Follows (s.runUnit cancelled u).2 := by
  unfold runUnit
  split
  · exact .refl s
  · rename_i entry _
    split
    · exact .refl s
    · have hm : (s.machine cancelled).Discreet := fun _ _ args hn hname =>
        (Builtin.modest_natives hn hname args).mute
      have hopen : s.world.Follows (s.opening entry).world := World.follows_of_eq rfl rfl rfl rfl
      have hrun := hopen.trans (Machine.follows_run hm Machine.ample entry [] 0
        (s.opening entry).world)
      rw [runEntry_eq]
      generalize (s.machine cancelled).run Machine.ample entry [] 0
        (s.opening entry).world = r at hrun
      cases r with
      | error e w => exact ⟨rfl, hrun⟩
      | ok v w =>
        have hw : s.Follows { s with world := w } := ⟨rfl, hrun⟩
        exact hw.trans (follows_log _ _)

theorem follows_execute (s : Session) (cancelled : Bool) (p : Program) :
    s.Follows (s.execute cancelled p).2 := by
  have hoptimize (t : Session) (fs : List FuncRef) :
      t.Follows (if t.settings.optimize then fs.foldl optimize t else t) := by
    split
    · exact follows_foldl follows_optimize t fs
    · exact .refl t
  have hdump (t : Session) (fs : List FuncRef) :
      t.Follows (if t.settings.dump then fs.foldl dump t else t) := by
    split
    · exact follows_foldl follows_dump t fs
    · exact .refl t
  unfold execute
  rcases s.lowering.lower p with ⟨failure | u, l⟩
  · exact follows_log { s with lowering := l } _
  · exact (hoptimize { s with lowering := l } _).trans
      ((hdump _ _).trans (follows_runUnit _ cancelled u))

end Session

namespace Repl

inductive Ending where
  | program (p : Program)
  | broken (d : Diagnostic)
  | aborted
  /-- The input ends first. -/
  | unfinished

structure Passage where
  lines : List String
  ending : Ending

def joined (lines : List String) : String := "\n".intercalate lines

/-- Cuts a script into chunks. Each answer is a line or an abort; `opened` has the lines of the
chunk that is open. -/
def passages (opened : List String) : List (Option String) → List Passage
  | [] => [⟨opened, .unfinished⟩]
  | none :: script => ⟨opened, .aborted⟩ :: passages [] script
  | some line :: script =>
    match Program.parse (joined (opened ++ [line])) with
    | .ok p => ⟨opened ++ [line], .program p⟩ :: passages [] script
    | .error d =>
      if d.incomplete then passages (opened ++ [line]) script
      else ⟨opened ++ [line], .broken d⟩ :: passages [] script

namespace Passage

def text (c : Passage) : String := joined c.lines

/-- How often the user is asked: for each line, and for what ends the chunk instead of one. -/
def questions (c : Passage) : Nat := match c.ending with
  | .program _ | .broken _ => c.lines.length
  | .aborted | .unfinished => c.lines.length + 1

def promptAt (settings : Settings) (k : Nat) : Event :=
  .prompt (if k = 0 then settings.prompt else settings.continuationPrompt)

def history (c : Passage) : List Event := match c.ending with
  | .program (_ :: _) | .broken _ => [.history (oneLine c.text)]
  | _ => []

def dialogue (c : Passage) (settings : Settings) (k : Nat) : List Event :=
  (List.range' k (c.questions - k)).map (promptAt settings) ++ c.history

end Passage

def run (s : Session) (p : Program) : Session := match s.execute false p with
  | (.error e, s) => s.report name e
  | (.ok _, s) => s

def converse (k : Nat) (s : Session) (c : Passage) : Session :=
  { s with world := { s.world with
    answers := s.world.answers.drop (c.questions - k)
    events := s.world.events ++ (c.dialogue s.settings k).toArray } }

/-- Goes through a chunk of which `k` lines were asked for before: takes the answers, then runs or
reports what they make. -/
def playFrom (k : Nat) (s : Session) (c : Passage) : Session :=
  let s := converse k s c
  match c.ending with
  | .program [] | .aborted => s
  | .program p => run s p
  | .broken d => s.report name (.diagnostic d)
  | .unfinished => s.emit (.out [10])

def play : Session → Passage → Session := playFrom 0

theorem follows_run (s : Session) (p : Program) : s.Follows (run s p) := by
  have h := s.follows_execute false p
  unfold run
  generalize s.execute false p = r at h ⊢
  rcases r with ⟨e | x, t⟩
  · exact h.trans (t.follows_report name e)
  · exact h

theorem follows_playFrom (k : Nat) (s : Session) (c : Passage) :
    (converse k s c).Follows (playFrom k s c) := by
  unfold playFrom
  dsimp only
  split
  · exact .refl _
  · exact .refl _
  · exact follows_run _ _
  · exact Session.follows_report _ _ _
  · exact Session.follows_emit _ rfl

def settle : Chunk × Session → Session
  | (.ended, s) => s.emit (.out [10])
  | (.aborted, s) | (.program _ [], s) => s
  | (.broken src e, s) => (remember s src).report name e
  | (.program src p, s) => run (remember s src) p

theorem loop_succ (n : Nat) (s : Session) : loop false (n + 1) s =
    match readChunk (s.world.answers.length + 1) s "" with
    | (.ended, t) => (none, settle (.ended, t))
    | r => loop false n (settle r) := by
  rw [loop, if_neg Bool.false_ne_true]
  rcases readChunk (s.world.answers.length + 1) s "" with ⟨⟨src, - | ⟨q, p⟩⟩ | _ | _ | _, t⟩
  · rfl
  · simp only [settle, run]
    rcases (remember t src).execute false (q :: p) with ⟨e | x, u⟩ <;> rfl
  · rfl
  · rfl
  · rfl

theorem calls_readChunk (fuel : Nat) (s : Session) (src : String) :
    (readChunk fuel s src).2.world.calls = s.world.calls := by
  induction fuel generalizing s src with
  | zero => rfl
  | succ fuel ih =>
    have hask (prompt : String) : (s.world.ask prompt).2.calls = s.world.calls := by
      unfold World.ask
      dsimp only
      split <;> rfl
    simp only [readChunk]
    specialize hask (if src = "" then s.settings.prompt else s.settings.continuationPrompt)
    generalize s.world.ask _ = r at hask ⊢
    rcases r with ⟨(_ | _ | _) | line, w⟩
    · exact hask
    · exact hask
    · exact hask
    · dsimp only
      split
      · exact hask
      · split
        · exact (ih _ _).trans hask
        · exact hask

theorem calls_settle (r : Chunk × Session) :
    r.2.world.calls.toList <+: (settle r).world.calls.toList := by
  rcases r with ⟨⟨src, - | ⟨q, p⟩⟩ | _ | _ | _, t⟩
  · exact List.prefix_rfl
  · exact (follows_run (remember t src) (q :: p)).2.calls
  all_goals exact List.prefix_rfl

theorem calls_loop (n : Nat) (s : Session) :
    s.world.calls.toList <+: (loop false n s).2.world.calls.toList := by
  induction n generalizing s with
  | zero => exact List.prefix_rfl
  | succ n ih =>
    have hread := calls_readChunk (s.world.answers.length + 1) s ""
    rw [loop_succ]
    generalize readChunk (s.world.answers.length + 1) s "" = r at hread ⊢
    obtain ⟨chunk, t⟩ := r
    have hsettle : s.world.calls.toList <+: (settle (chunk, t)).world.calls.toList :=
      hread ▸ calls_settle (chunk, t)
    cases chunk with
    | ended => exact hsettle
    | _ => exact hsettle.trans (ih _)

def answer : Option String → Answer
  | some line => .line line
  | none => .aborted

def Opened (opened : List String) : Prop := opened = [] ∨ joined opened ≠ ""

theorem gather_eq {opened : List String} (h : Opened opened) (line : String) :
    gather (joined opened) line = joined (opened ++ [line]) := by
  by_cases hnil : opened = []
  · simp [gather, joined, hnil]
  · have happend : joined (opened ++ [line]) = joined opened ++ "\n" ++ line := by
      simp [joined, String.intercalate_append_of_ne_nil hnil]
    simp [gather, h.resolve_left hnil, happend]

theorem promptFor_eq {opened : List String} (h : Opened opened) (s : Session) :
    Event.prompt (promptFor s (joined opened)) = Passage.promptAt s.settings opened.length := by
  by_cases hnil : opened = []
  · simp [promptFor, Passage.promptAt, joined, hnil]
  · simp [promptFor, Passage.promptAt, h.resolve_left hnil, hnil]

def asked (k : Nat) (s : Session) : Session :=
  { s with world := { s.world.emit (Passage.promptAt s.settings
      k) with answers := s.world.answers.tail } }

theorem readChunk_succ (n : Nat) (s : Session) {opened : List String} (h : Opened opened) :
    readChunk (n + 1) s (joined opened) =
      match s.world.answers with
      | [] => (.ended, asked opened.length s)
      | .aborted :: _ => (.aborted, asked opened.length s)
      | .failed text :: _ => (.broken (joined opened) (.other text), asked opened.length s)
      | .line line :: _ =>
        match Program.parse (joined (opened ++ [line])) with
        | .ok p => (.program (joined (opened ++ [line])) p, asked opened.length s)
        | .error d =>
          if d.incomplete then
            readChunk n (asked opened.length s) (joined (opened ++ [line]))
          else (.broken (joined (opened ++ [line])) (.diagnostic d), asked opened.length s) := by
  have hprompt := promptFor_eq h s
  rw [promptFor] at hprompt
  have hgather := gather_eq h
  simp only [gather] at hgather
  rcases ha : s.world.answers with - | ⟨line | - | text, rest⟩
  on_goal 2 => cases hp : Program.parse (joined (opened ++ [line]))
  all_goals simp only [readChunk, World.ask, World.emit, asked, List.tail_cons, List.tail_nil, *]

theorem converse_succ {k : Nat} {c : Passage} (h : k < c.questions) (s : Session) :
    converse k s c = converse (k + 1) (asked k s) c := by
  have hrange : List.range' k (c.questions - k) = k :: List.range' (k + 1)
    (c.questions - (k + 1)) := by
    rw [← List.range'_succ]
    congr 1
    omega
  have hdrop (answers : List Answer) :
      answers.drop (c.questions - k) = answers.tail.drop (c.questions - (k + 1)) := by
    rw [← List.drop_one, List.drop_drop]
    congr 1
    omega
  simp [converse, asked, Passage.dialogue, hrange, hdrop, World.emit]

theorem converse_end {k : Nat} {c : Passage} (h : c.questions = k + 1) (s : Session) :
    converse k s c = { asked k s with world := { (asked k s).world with
      events := (asked k s).world.events ++ c.history.toArray } } := by
  rw [converse_succ (by omega)]
  simp [converse, Passage.dialogue, h]

/-- What reading a chunk of a script comes to: dealing with it goes through the first one. -/
def Takes (opened : List String) (script : List (Option String)) (s : Session)
    (r : Chunk × Session) : Prop :=
  ∃ c cs, passages opened script = c :: cs ∧ opened.length < c.questions ∧
    settle r = playFrom opened.length s c ∧
    ((cs = [] ∧ r.1 = .ended) ∨ r.1 ≠ .ended ∧ ∃ rest, cs = passages [] rest ∧
      rest.length < script.length ∧ s.world.answers.drop (c.questions - opened.length) =
        rest.map answer)

theorem takes_of_end {s : Session} {opened : List String} {a : Option String}
    {script : List (Option String)}
    {c : Passage} {chunk : Chunk} (hanswers : s.world.answers = (a :: script).map answer)
    (hc : passages opened (a :: script) = c :: passages [] script)
    (hq : c.questions = opened.length + 1)
    (hne : chunk ≠ .ended) (hsettle : settle (chunk, asked opened.length s) =
    playFrom opened.length s c) :
    Takes opened (a :: script) s (chunk, asked opened.length s) :=
  ⟨c, _, hc, by omega, hsettle, .inr ⟨hne, script, rfl, by simp, by simp [hq, hanswers]⟩⟩

theorem readChunk_takes (script : List (Option String)) {opened : List String}
    (hopen : Opened opened)
    (s : Session) (n : Nat) (hanswers : s.world.answers = script.map answer)
    (hn : script.length ≤ n) :
    Takes opened script s (readChunk (n + 1) s (joined opened)) := by
  induction script generalizing opened s n with
  | nil =>
    rw [readChunk_succ n s hopen, hanswers]
    refine ⟨⟨opened, .unfinished⟩, [], rfl, Nat.lt_succ_self _, ?_, .inl ⟨rfl, rfl⟩⟩
    rw [playFrom, converse_end rfl]
    rfl
  | cons a script ih =>
    rw [readChunk_succ n s hopen, hanswers]
    cases a with
    | none =>
      refine takes_of_end hanswers (c := ⟨opened, .aborted⟩) rfl rfl (by simp) ?_
      rw [playFrom, converse_end rfl]
      rfl
    | some line =>
      simp only [List.map_cons, answer]
      cases hparse : Program.parse (joined (opened ++ [line])) with
      | ok p =>
        have hq : (⟨opened ++ [line], .program p⟩ : Passage).questions = opened.length + 1 := by
          simp [Passage.questions]
        refine takes_of_end hanswers (by simp [passages, hparse]) hq (by simp) ?_
        rw [playFrom, converse_end hq]
        cases p <;> simp [settle, Passage.history, remember, Session.emit, World.emit, Passage.text]
      | error d =>
        dsimp only
        split
        · rename_i hd
          obtain ⟨k, rfl⟩ : ∃ k, n = k + 1 := ⟨n - 1, by simp at hn; omega⟩
          have hopen' : Opened (opened ++ [line]) := by
            refine .inr fun hnil => ?_
            rw [hnil] at hparse
            cases hparse
          obtain ⟨c, cs, hc, hq, hsettle, hrest⟩ := ih hopen' (asked opened.length s) k
            (by simp [asked, hanswers]) (by simpa using hn)
          rw [List.length_append, List.length_singleton] at hq hsettle hrest
          refine ⟨c, cs, by simpa [passages, hparse, hd] using hc, by omega, ?_, ?_⟩
          · rw [hsettle, playFrom, playFrom,
              converse_succ (by omega : opened.length < c.questions) s]
          · refine hrest.imp_right ?_
            rintro ⟨hne, rest, hcs, hlt, hdrop⟩
            refine ⟨hne, rest, hcs, Nat.lt_succ_of_lt hlt, ?_⟩
            rw [← hdrop, asked, ← List.drop_one, List.drop_drop]
            congr 1
            omega
        · rename_i hd
          have hq : (⟨opened ++ [line], .broken d⟩ : Passage).questions = opened.length + 1 := by
            simp [Passage.questions]
          refine takes_of_end hanswers (by simp [passages, hparse, hd]) hq (by simp) ?_
          rw [playFrom, converse_end hq]
          simp [settle, Passage.history, remember, Session.emit, World.emit, Passage.text]

theorem dialogue_converse (s : Session) (c : Passage) :
    (converse 0 s c).world.dialogue = s.world.dialogue ++ c.dialogue s.settings 0 := by
  have hall : ∀ e ∈ c.dialogue s.settings 0, e.isDialogue = true := by
    intro e he
    rcases List.mem_append.mp he with he | he
    · obtain ⟨k, -, rfl⟩ := List.mem_map.mp he
      rfl
    · unfold Passage.history at he
      split at he
      · rw [List.mem_singleton.mp he]
        rfl
      · rw [List.mem_singleton.mp he]
        rfl
      · cases he
  simp [World.dialogue, converse, List.filter_eq_self.mpr hall]

theorem loop_plays (script : List (Option String)) (n : Nat) (s : Session)
    (hanswers : s.world.answers = script.map answer) (hsource : s.world.source = .prompts)
    (hn : script.length < n) (hread : ¬ s.world.Reads (loop false n s).2.world) :
    loop false n s = (none, (passages [] script).foldl play s) ∧
    (loop false n s).2.world.dialogue =
      s.world.dialogue ++ (passages [] script).flatMap (·.dialogue s.settings 0) := by
  induction n generalizing s script with
  | zero => omega
  | succ n ih =>
    obtain ⟨c, cs, hc, -, hsettle, hrest⟩ := readChunk_takes script (show Opened [] from .inl rfl) s
      s.world.answers.length hanswers (by simp [hanswers])
    have hfollows := follows_playFrom 0 s c
    have hsucc := loop_succ n s
    change settle (readChunk _ s "") = play s c at hsettle
    change cs = [] ∧ (readChunk _ s "").1 = _ ∨ (readChunk _ s "").1 ≠ _ ∧ _ at hrest
    generalize readChunk (s.world.answers.length + 1) s "" = r at hsettle hrest hsucc
    obtain ⟨chunk, t⟩ := r
    rw [hc, List.foldl_cons, List.flatMap_cons]
    rcases hrest with ⟨rfl, rfl⟩ | ⟨hne, rest, rfl, hlt, hdrop⟩
    · dsimp only at hsucc
      rw [hsucc, hsettle] at hread ⊢
      refine ⟨rfl, ?_⟩
      rw [List.flatMap_nil, List.append_nil, ← dialogue_converse]
      exact (hfollows.2.quiet hsource hread).2
    · have hloop : loop false (n + 1) s = loop false n (play s c) := by
        rw [hsucc, ← hsettle]
        cases chunk with
        | ended => exact absurd rfl hne
        | _ => rfl
      rw [hloop] at hread ⊢
      have hcalls : s.world.calls.toList <+: (play s c).world.calls.toList := hfollows.2.calls
      obtain ⟨hplayed, hshown⟩ := hfollows.2.quiet hsource fun h => hread (h.mono (calls_loop n _))
      obtain ⟨h₁, h₂⟩ := ih rest (play s c) (hplayed.trans hdrop)
        (hfollows.2.source hsource) (by omega)
        fun h => hread (h.of_later hcalls)
      refine ⟨h₁, h₂.trans ?_⟩
      change (play s c).world.dialogue = (converse 0 s c).world.dialogue at hshown
      have hsettings : (play s c).settings = s.settings := hfollows.1
      rw [hshown, dialogue_converse, hsettings, List.append_assoc]

theorem newline_not_mem_oneLine (src : String) : '\n' ∉ (oneLine src).toList := by
  simp only [oneLine, String.toList_map, List.mem_map, not_exists, not_and]
  intro c _ hc
  split at hc
  · exact absurd hc (by decide)
  · contradiction

end Repl

end RealScript
