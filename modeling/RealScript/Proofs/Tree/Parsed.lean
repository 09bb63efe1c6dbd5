import RealScript.Proofs.Token.Lines
import RealScript.Proofs.Tree.Completion
import RealScript.Proofs.Tree.Derivations

/-! # Parsing gives well-shaped trees

Whatever is derived from tokens that scanning can give is well shaped, and so is what parsing
accepts.
-/

namespace RealScript

variable {ts : List Token} {α : Type} {s : Stream}

def Phrase.Shaped : Phrase → Prop
  | .statement top n => n.Shaped (if top then .top else .body)
  | .block top ns => Node.ShapedAll (if top then .top else .body) ns
  | .expression _ n | .unary n | .primary n => n.Shaped .operand
  | .arguments ns | .further ns => Node.ShapedAll .operand ns
  | .elements ns => ns ≠ [] ∧ Node.ShapedAll .operand ns
  | .function xs ns => (∀ x ∈ xs, IsName x) ∧ Node.ShapedAll .body ns
  | .params xs | .names xs => ∀ x ∈ xs, IsName x

theorem Level.ne_operand (top : Bool) : (if top then Level.top else .body) ≠ .operand := by
  cases top <;> simp

theorem Token.Joins.mem {t : Token} {op : Operator} (h : t.Joins op) (ht : t.lexeme.Scanned) :
    op ∈ Operator.table ∧ op.isBinary = true := by
  obtain ⟨hl, -⟩ := h.lexeme
  rw [hl] at ht
  unfold Token.Joins Parse.binaryOperator? at h
  simp only [hl] at h
  split at h
  · exact ⟨ht, ‹_›⟩
  · cases h

theorem Derives.shaped {p : Phrase} (h : Derives p ts)
    (hs : ∀ t ∈ ts, t.lexeme.Scanned) : p.Shaped := by
  induction h with
  | plain _ ih => exact (ih hs).of_operand _
  | binary hj _ _ _ ihl ihr =>
    simp only [List.forall_mem_append, List.forall_mem_cons] at hs
    obtain ⟨hop, hbinary⟩ := hj.mem hs.2.1
    exact ⟨⟨_, hop, hbinary, rfl⟩, ihl hs.1, ihr hs.2.2⟩
  | unary ht hcategory _ ih =>
    obtain ⟨hop, hs⟩ := List.forall_mem_cons.mp hs
    rw [ht] at hop
    have hall : ∀ o ∈ Operator.table, o.category = .unary → o.spelling = "not" := by decide
    exact ⟨hall _ hop hcategory, ih hs⟩
  -- Elsewhere the parts are those of the tree, and names and numbers are those of tokens.
  | _ =>
    simp_all [Phrase.Shaped, Node.Shaped, Node.ShapedAll, Lexeme.Scanned, Level.ne_operand,
      or_imp, forall_and]

theorem Scanned.inner {e : Token} (h : Scanned (ts ++ [e])) :
    ∀ t ∈ ts, t.lexeme.Scanned ∧ t.kind ≠ .endOfInput := by
  induction ts with
  | nil => simp
  | cons t ts ih =>
    obtain ⟨ht, hend, hts⟩ := h
    exact List.forall_mem_cons.mpr ⟨⟨ht, fun hk => by simpa using hend hk⟩, ih hts⟩

namespace Parse

def Refuses {α : Type} (x : Parse α) (s : Stream) : Prop := ∀ r, x s ≠ .ok r

theorem Refuses.current {f : Token → Parse α} (h : Refuses (f s.tok) s) :
    Refuses (current >>= f) s := h

theorem Refuses.of_error {β : Type} {x : Parse α} {f : α → Parse β} {d : Diagnostic}
    (h : x s = .error d) : Refuses (x >>= f) s := by
  intro r
  rw [bind_run, h]
  simp

theorem Gives.refuses {β : Type} {x : Parse α} {f : α → Parse β} {a : α} {us : List Token}
    (h : Gives x s a us) (hf : ∀ t, Reads t us → t.failure = s.failure → Refuses (f a) t) :
    Refuses (x >>= f) s := by
  obtain ⟨t, ht, hus, hfail⟩ := h
  intro r
  rw [bind_run, ht]
  exact hf t hus hfail r

theorem refuses_of_failure (n : Nat) {d : Diagnostic} (hs : Reads s ts)
    (hts : Inner ts) (hd : s.failure = some d) (hn : ts.length < n) : Refuses ampleProgram s := by
  induction n generalizing s ts with
  | zero => exact absurd hn (Nat.not_lt_zero _)
  | succ n ih =>
    cases ts with
    | nil => exact absurd hs not_reads_nil
    | cons t ts =>
      suffices h : Refuses (programBy (Calls.ample.statement false) ampleProgram) s from
        fun r => ampleProgram_eq hs.closed ▸ h r
      refine .current ?_
      rw [hs.tok]
      split
      · cases ts with
        | nil => exact .of_error (advance_last hs hd)
        | cons u ts =>
          refine (Gives.advance hs (List.cons_ne_nil _ _)).refuses fun v hus hfail => ?_
          exact ih hus hts.tail (hfail.trans hd) (Nat.lt_of_succ_lt_succ hn)
      · rename_i hl
        exact absurd (congrArg Lexeme.kind hl) hts.head
      · have hs' : Reads s (t :: ts ++ []) := by rwa [List.append_nil]
        cases ((whole (n + 1) {}).statement false).tracks (t :: ts) hts hn with
        | accepts a rest hrest hk hgives hcut =>
          by_cases hnil : rest = []
          · exact .of_error (hcut hnil s d hs hd)
          · refine (hgives s [] hs' (absurd · hnil)).refuses fun v hus hfail r => ?_
            rw [List.append_nil] at hus
            rw [bind_run]
            cases hrun : ampleProgram v with
            | error => simp
            | ok q => exact absurd hrun (ih hus hrest (hfail.trans hd) (by omega) q)
        | rejects _ _ _ herror => exact .of_error (herror s [] hs')
        | wants _ _ _ _ hcut => exact .of_error (hcut s d hs hd)

end Parse

namespace Program

theorem shaped_of_parse {src : String} {p : Program} (h : parse src = .ok p) :
    Node.ShapedAll .top p := by
  have hscanned := Scan.scanned_run ((Cursor.ofString src).rest.length + 1) (.ofString src)
  rw [← Scan.ofCursor] at hscanned
  rw [parse, parseCursor] at h
  rcases Scan.ofCursor_cases (.ofString src) rfl with ⟨d, -, hd, hts⟩ | ⟨ts, hscan, hts⟩
  · generalize Scan.ofCursor (.ofString src) = s at h hd hts
    obtain ⟨_ | ⟨t, rest⟩, failure⟩ := s
    · rw [show failure = some d from hd] at h
      cases h
    · have hclosed : Stream.Closed ⟨t, rest, failure⟩ := fun hnone => absurd
        (hnone.symm.trans hd) (by simp)
      rw [ofScan_eq hclosed] at h
      cases hrun : Parse.ampleProgram ⟨t, rest, failure⟩ with
      | error => rw [hrun] at h; cases h
      | ok r =>
        exact absurd hrun (Parse.refuses_of_failure _ ⟨rfl, hclosed⟩ hts hd (Nat.lt_succ_self _) r)
  · rw [hscan] at h hscanned
    exact (derived_of_ofScan rfl hts h).derives.shaped fun t ht => (hscanned.inner t ht).1

end Program

end RealScript
