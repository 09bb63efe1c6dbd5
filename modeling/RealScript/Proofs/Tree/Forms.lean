import RealScript.Proofs.Decimal.Reading
import RealScript.Proofs.Tree.Parsed
import RealScript.Proofs.Tree.Reading
import RealScript.Tree.Sexp

/-! # Telling trees apart by their forms

The compact form of a tree is a nested list of words, which can be read in one way only. It tells
trees apart but for one thing: a loop without a step has the form of a loop whose step is the
variable `_`.
-/

namespace RealScript

/-! ## Nested lists -/

inductive Form where
  | word (w : String)
  | list (forms : List Form)

namespace Form

mutual

def text : Form → List Char
  | .word w => w.toList
  | .list [] => ['(', ')']
  | .list (f :: fs) => '(' :: (text f ++ textAll fs ++ [')'])

def textAll : List Form → List Char
  | [] => []
  | f :: fs => ' ' :: (text f ++ textAll fs)

end

def isBound (c : Char) : Bool := c == ' ' || c == '(' || c == ')'

mutual

def Proper : Form → Prop
  | .word w => w ≠ "" ∧ ∀ c ∈ w.toList, isBound c = false
  | .list fs => ProperAll fs

def ProperAll : List Form → Prop
  | [] => True
  | f :: fs => f.Proper ∧ ProperAll fs

end

instance (w : String) : Decidable (word w).Proper :=
  @instDecidableAnd _ _ _ (List.decidableBAll _ _)

def Ends (cs : List Char) : Prop := ∀ c ∈ cs.head?, isBound c = true

theorem ends_textAll (fs : List Form) (cs : List Char) : Ends (textAll fs ++ ')' :: cs) := by
  intro c hc
  cases fs <;> obtain rfl := Option.some.inj hc <;> rfl

theorem word_inj {v w r s : List Char} (hv : ∀ c ∈ v, isBound c = false)
    (hw : ∀ c ∈ w, isBound c = false)
    (hr : Ends r) (hs : Ends s) (h : v ++ r = w ++ s) : v = w ∧ r = s := by
  have hsplit {v r : List Char} (hv : ∀ c ∈ v, isBound c = false) (hr : Ends r) :
      (v ++ r).takeWhile (fun c => !isBound c) = v := by
    rw [List.takeWhile_append_of_pos fun c hc => by rw [hv c hc]; rfl]
    cases r with
    | nil => exact List.append_nil v
    | cons c r => rw [List.takeWhile_cons_of_neg (by simp [hr c rfl]), List.append_nil]
  have hvw : v = w := by rw [← hsplit hv hr, h, hsplit hw hs]
  subst hvw
  exact ⟨rfl, List.append_cancel_left h⟩

theorem text_list (fs : List Form) : ∃ cs, (list fs).text = '(' :: cs := by
  cases fs with
  | nil => exact ⟨_, rfl⟩
  | cons f fs => exact ⟨_, rfl⟩

theorem Proper.head_word {w : String} (h : (word w).Proper) :
    ∃ c cs, (word w).text = c :: cs ∧ isBound c = false := by
  cases hw : w.toList with
  | nil => exact absurd (String.toList_eq_nil_iff.mp hw) h.1
  | cons c cs => exact ⟨c, cs, by rw [text, hw], h.2 c (by rw [hw]; exact List.mem_cons_self)⟩

theorem Proper.word_ne_list {w : String} (h : (word w).Proper) (fs : List Form) (r s : List Char) :
    (word w).text ++ r ≠ (list fs).text ++ s := by
  obtain ⟨c, cs, hw, hc⟩ := h.head_word
  obtain ⟨ds, hfs⟩ := text_list fs
  rw [hw, hfs]
  intro heq
  rw [(List.cons.inj heq).1] at hc
  cases hc

theorem Proper.text_ne {f : Form} (hf : f.Proper) (r s : List Char) : f.text ++ r ≠ ')' :: s := by
  cases f with
  | word w =>
    obtain ⟨c, cs, hw, hc⟩ := hf.head_word
    rw [hw]
    intro heq
    rw [(List.cons.inj heq).1] at hc
    cases hc
  | list fs =>
    obtain ⟨ds, hfs⟩ := text_list fs
    rw [hfs]
    intro heq
    cases (List.cons.inj heq).1

mutual

theorem text_inj (f g : Form) (hf : f.Proper) (hg : g.Proper) {r s : List Char}
    (hr : Ends r) (hs : Ends s)
    (h : f.text ++ r = g.text ++ s) : f = g ∧ r = s := by
  match f, g with
  | .word v, .word w =>
    obtain ⟨hvw, hrs⟩ := word_inj hf.2 hg.2 hr hs h
    exact ⟨congrArg _ (String.toList_injective hvw), hrs⟩
  | .word v, .list gs => exact absurd h (hf.word_ne_list gs r s)
  | .list fs, .word w => exact absurd h.symm (hg.word_ne_list fs s r)
  | .list [], .list [] => exact ⟨rfl, (List.cons.inj (List.cons.inj h).2).2⟩
  | .list [], .list (g :: gs) =>
    simp only [text, List.cons_append, List.append_assoc, List.cons.injEq, true_and] at h
    exact absurd h.symm (hg.1.text_ne _ _)
  | .list (f :: fs), .list [] =>
    simp only [text, List.cons_append, List.append_assoc, List.cons.injEq, true_and] at h
    exact absurd h (hf.1.text_ne _ _)
  | .list (f :: fs), .list (g :: gs) =>
    simp only [text, List.cons_append, List.append_assoc, List.nil_append, List.cons.injEq,
      true_and] at h
    obtain ⟨rfl, hall⟩ := text_inj f g hf.1 hg.1 (ends_textAll fs r) (ends_textAll gs s) h
    obtain ⟨rfl, hrest⟩ := textAll_inj fs gs hf.2 hg.2 hall
    exact ⟨rfl, hrest⟩

theorem textAll_inj (fs gs : List Form) (hf : ProperAll fs) (hg : ProperAll gs) {r s : List Char}
    (h : textAll fs ++ ')' :: r = textAll gs ++ ')' :: s) : fs = gs ∧ r = s := by
  match fs, gs with
  | [], [] => exact ⟨rfl, (List.cons.inj h).2⟩
  | [], g :: gs => cases (List.cons.inj h).1
  | f :: fs, [] => cases (List.cons.inj h).1
  | f :: fs, g :: gs =>
    simp only [textAll, List.cons_append, List.append_assoc, List.cons.injEq, true_and] at h
    obtain ⟨rfl, hall⟩ := text_inj f g hf.1 hg.1 (ends_textAll fs r) (ends_textAll gs s) h
    obtain ⟨rfl, hrest⟩ := textAll_inj fs gs hf.2 hg.2 hall
    exact ⟨rfl, hrest⟩

end

def names (xs : List String) : Form := .list (xs.map .word)

inductive Kind where
  | leaf | operation | conditional | whileLoop | forLoop | funcLit | funcDef | hostDecl | ret
  | call (builtin : Bool)
  | collection (sequence : Bool)

def Kind.ofWord (w : String) : Kind := if w = "do" then .call true
  else if w = "call" then .call false
  else if w = "seq" then .collection true
  else if w = "coll" then .collection false
  else if w = "if" then .conditional
  else if w = "while" then .whileLoop
  else if w = "for" then .forLoop
  else if w = "func" then .funcLit
  else if w = "def" then .funcDef
  else if w = "extern" then .hostDecl
  else if w = "return" then .ret
  else .operation

def kind : Form → Kind
  | .list (.word w :: _) => .ofWord w
  | _ => .leaf

end Form

/-! ## Trees -/

namespace Node

mutual

def form : Node → Form
  | .number _ x => .word (Decimal.general x)
  | .ident _ name => .word name
  | .unary _ op x => .list [.word op, form x]
  | .binary _ op l r => .list [.word op, form l, form r]
  | .call _ builtin callee args =>
    .list (.word (if builtin then "do" else "call") :: .word callee :: formAll args)
  | .collection _ sequence elements =>
    .list (.word (if sequence then "seq" else "coll") :: formAll elements)
  | .conditional _ c body none => .list [.word "if", form c, .list (.word "then" :: formAll body)]
  | .conditional _ c body (some otherwise) =>
    .list [.word "if", form c, .list (.word "then" :: formAll body),
      .list (.word "else" :: formAll otherwise)]
  | .whileLoop _ c body => .list (.word "while" :: form c :: formAll body)
  | .forLoop _ var start stop none body =>
    .list (.word "for" :: .word var :: form start :: form stop :: .word "_" :: formAll body)
  | .forLoop _ var start stop (some step) body =>
    .list (.word "for" :: .word var :: form start :: form stop :: form step :: formAll body)
  | .funcLit _ params body => .list (.word "func" :: .names params :: formAll body)
  | .funcDef _ name params body =>
    .list (.word "def" :: .word name :: .names params :: formAll body)
  | .hostDecl _ name params => .list [.word "extern", .word name, .names params]
  | .ret _ x => .list [.word "return", form x]

def formAll : List Node → List Form
  | [] => []
  | n :: ns => form n :: formAll ns

end

theorem text_names (xs : List String) : (Form.names xs).text = (listed xs).toList := by
  have hall (x : String) (xs : List String) :
      x.toList ++ Form.textAll (xs.map .word) = (" ".intercalate (x :: xs)).toList := by
    induction xs generalizing x with
    | nil => simp [Form.textAll, String.intercalate_singleton]
    | cons y xs ih =>
      rw [String.intercalate_cons_cons, String.toList_append, String.toList_append, ← ih]
      simp [Form.textAll, Form.text]
  cases xs with
  | nil => rfl
  | cons x xs => simp [Form.names, Form.text, listed, ← hall]

mutual

theorem text_form (n : Node) : n.form.text = n.sexp.toList := by
  match n with
  | .number _ _ | .ident _ _ => rfl
  | .unary _ _ x => simp [form, sexp, Form.text, Form.textAll, text_form x]
  | .binary _ _ l r => simp [form, sexp, Form.text, Form.textAll, text_form l, text_form r]
  | .call _ builtin _ args =>
    cases builtin <;> simp [form, sexp, Form.text, Form.textAll, textAll_formAll args]
  | .collection _ sequence elements =>
    cases sequence <;> simp [form, sexp, Form.text, textAll_formAll elements]
  | .conditional _ c body none =>
    simp [form, sexp, Form.text, Form.textAll, text_form c, textAll_formAll body]
  | .conditional _ c body (some otherwise) =>
    simp [form, sexp, Form.text, Form.textAll, text_form c, textAll_formAll body,
      textAll_formAll otherwise]
  | .whileLoop _ c body =>
    simp [form, sexp, Form.text, Form.textAll, text_form c, textAll_formAll body]
  | .forLoop _ _ start stop none body =>
    simp [form, sexp, Form.text, Form.textAll, text_form start, text_form stop,
      textAll_formAll body]
  | .forLoop _ _ start stop (some step) body =>
    simp [form, sexp, Form.text, Form.textAll, text_form start, text_form stop, text_form step,
      textAll_formAll body]
  | .funcLit _ _ body =>
    simp [form, sexp, Form.text, Form.textAll, text_names, textAll_formAll body]
  | .funcDef _ _ _ body =>
    simp [form, sexp, Form.text, Form.textAll, text_names, textAll_formAll body]
  | .hostDecl _ _ _ => simp [form, sexp, Form.text, Form.textAll, text_names]
  | .ret _ x => simp [form, sexp, Form.text, Form.textAll, text_form x]

theorem textAll_formAll (ns : List Node) : Form.textAll (formAll ns) = (sexpAll ns).toList := by
  match ns with
  | [] => rfl
  | n :: ns => simp [formAll, sexpAll, Form.textAll, text_form n, textAll_formAll ns]

end

/-! ## Proper words -/

theorem not_isBound_of_isWordChar {c : Char} (h : isWordChar c = true) :
    Form.isBound c = false := by
  rw [← Bool.not_eq_true]
  intro hb
  simp only [Form.isBound, Bool.or_eq_true, beq_iff_eq] at hb
  rcases hb with (rfl | rfl) | rfl <;> revert h <;> decide

theorem proper_name {x : String} (hx : IsName x) : (Form.word x).Proper := by
  obtain ⟨c, cs, hspell, hc, hcs⟩ := hx.spelled
  constructor
  · rintro rfl
    cases hspell
  · rw [hspell]
    refine List.forall_mem_cons.mpr ⟨not_isBound_of_isWordChar (by simp [isWordChar, hc]),
      fun d hd => ?_⟩
    exact not_isBound_of_isWordChar (hcs d hd)

theorem proper_names {xs : List String} (hxs : ∀ x ∈ xs, IsName x) : (Form.names xs).Proper := by
  induction xs with
  | nil => trivial
  | cons x xs ih =>
    obtain ⟨hx, hxs⟩ := List.forall_mem_cons.mp hxs
    exact ⟨proper_name hx, ih hxs⟩

theorem proper_number {x : Float} (hx : Decimal.Unsigned x) :
    (Form.word (Decimal.general x)).Proper := by
  obtain ⟨hchars, hform⟩ := hx.general_cases
  constructor
  · intro hempty
    rw [hempty] at hform
    rcases hform with ⟨d, ds, -, hnil | ⟨es, -, hnil⟩⟩ | ⟨c, hc, -⟩
    · cases hnil
    · cases hnil
    · cases hc
  · intro c hc
    have hchar := hchars c hc
    rw [← Bool.not_eq_true]
    intro hb
    simp only [Form.isBound, Bool.or_eq_true, beq_iff_eq] at hb
    rcases hb with (rfl | rfl) | rfl <;> revert hchar <;> decide

theorem proper_operator {op : String} (hop : ∃ o ∈ Operator.table, o.spelling = op) :
    (Form.word op).Proper := by
  have hall : ∀ o ∈ Operator.table, (Form.word o.spelling).Proper := by decide
  obtain ⟨o, ho, rfl⟩ := hop
  exact hall o ho

theorem proper_reserved {x : String} (hx : x ∈ reservedNames) : (Form.word x).Proper := by
  have hall : ∀ x ∈ reservedNames, (Form.word x).Proper := by decide
  exact hall x hx

mutual

theorem Shaped.proper (level : Level) (n : Node) (h : n.Shaped level) : n.form.Proper := by
  match n with
  | .number _ _ => exact proper_number (Decimal.unsigned_of_numeral h)
  | .ident _ _ => exact proper_name h
  | .unary _ op x =>
    obtain ⟨rfl, hx⟩ := h
    exact ⟨by decide, Shaped.proper _ x hx, trivial⟩
  | .binary _ _ l r =>
    obtain ⟨⟨o, ho, -, hop⟩, hl, hr⟩ := h
    exact ⟨proper_operator ⟨o, ho, hop⟩, Shaped.proper _ l hl, Shaped.proper _ r hr, trivial⟩
  | .call _ false _ args => exact ⟨by decide, proper_name h.1, ShapedAll.proper _ args h.2⟩
  | .call _ true _ args => exact ⟨by decide, proper_reserved h.1, ShapedAll.proper _ args h.2⟩
  | .collection _ sequence elements =>
    exact ⟨by cases sequence <;> decide, ShapedAll.proper _ elements h.2⟩
  | .conditional _ c body none =>
    exact ⟨by decide, Shaped.proper _ c h.2.1, ⟨by decide, ShapedAll.proper _ body h.2.2⟩, trivial⟩
  | .conditional _ c body (some otherwise) =>
    exact ⟨by decide, Shaped.proper _ c h.2.1, ⟨by decide, ShapedAll.proper _ body h.2.2.1⟩,
      ⟨by decide, ShapedAll.proper _ otherwise h.2.2.2⟩, trivial⟩
  | .whileLoop _ c body => exact ⟨by decide, Shaped.proper _ c h.2.1, ShapedAll.proper _ body h.2.2⟩
  | .forLoop _ _ start stop none body =>
    exact ⟨by decide, proper_name h.2.1, Shaped.proper _ start h.2.2.1,
      Shaped.proper _ stop h.2.2.2.1,
      by decide, ShapedAll.proper _ body h.2.2.2.2⟩
  | .forLoop _ _ start stop (some step) body =>
    exact ⟨by decide, proper_name h.2.1, Shaped.proper _ start h.2.2.1,
      Shaped.proper _ stop h.2.2.2.1,
      Shaped.proper _ step h.2.2.2.2.1, ShapedAll.proper _ body h.2.2.2.2.2⟩
  | .funcLit _ _ body => exact ⟨by decide, proper_names h.1, ShapedAll.proper _ body h.2⟩
  | .funcDef _ _ _ body =>
    exact ⟨by decide, proper_name h.2.1, proper_names h.2.2.1, ShapedAll.proper _ body h.2.2.2⟩
  | .hostDecl _ _ _ => exact ⟨by decide, proper_name h.2.1, proper_names h.2.2, trivial⟩
  | .ret _ x => exact ⟨by decide, Shaped.proper _ x h.2, trivial⟩

theorem ShapedAll.proper (level : Level) (ns : List Node) (h : ShapedAll level ns) :
    Form.ProperAll (formAll ns) := by
  match ns with
  | [] => trivial
  | n :: ns => exact ⟨Shaped.proper level n h.1, ShapedAll.proper level ns h.2⟩

end

/-! ## Telling trees apart -/

def isUnderscore : Node → Bool
  | .ident _ name => name == "_"
  | _ => false

mutual

def withoutBlankSteps : Node → Node
  | .number p x => .number p x
  | .ident p name => .ident p name
  | .unary p op x => .unary p op (withoutBlankSteps x)
  | .binary p op l r => .binary p op (withoutBlankSteps l) (withoutBlankSteps r)
  | .call p builtin callee args => .call p builtin callee (withoutBlankStepsAll args)
  | .collection p sequence elements => .collection p sequence (withoutBlankStepsAll elements)
  | .conditional p c body none =>
    .conditional p (withoutBlankSteps c) (withoutBlankStepsAll body) none
  | .conditional p c body (some otherwise) =>
    .conditional p (withoutBlankSteps c) (withoutBlankStepsAll body)
      (some (withoutBlankStepsAll otherwise))
  | .whileLoop p c body => .whileLoop p (withoutBlankSteps c) (withoutBlankStepsAll body)
  | .forLoop p var start stop none body =>
    .forLoop p var (withoutBlankSteps start) (withoutBlankSteps stop) none
      (withoutBlankStepsAll body)
  | .forLoop p var start stop (some step) body =>
    .forLoop p var (withoutBlankSteps start) (withoutBlankSteps stop)
      (if step.isUnderscore then none else some (withoutBlankSteps step))
        (withoutBlankStepsAll body)
  | .funcLit p params body => .funcLit p params (withoutBlankStepsAll body)
  | .funcDef p name params body => .funcDef p name params (withoutBlankStepsAll body)
  | .hostDecl p name params => .hostDecl p name params
  | .ret p x => .ret p (withoutBlankSteps x)

def withoutBlankStepsAll : List Node → List Node
  | [] => []
  | n :: ns => withoutBlankSteps n :: withoutBlankStepsAll ns

end

theorem form_of_isUnderscore {n : Node} (h : n.isUnderscore = true) : n.form = .word "_" := by
  cases n with
  | ident p name => exact congrArg Form.word (beq_iff_eq.mp h)
  | _ => cases h

mutual

theorem form_unplaced (n : Node) : n.withoutBlankSteps.unplaced.form = n.form := by
  match n with
  | .number _ _ | .ident _ _ | .hostDecl _ _ _ => rfl
  | .unary _ _ x | .ret _ x => simp only [withoutBlankSteps, unplaced, form, form_unplaced x]
  | .binary _ _ l r =>
    simp only [withoutBlankSteps, unplaced, form, form_unplaced l, form_unplaced r]
  | .call _ _ _ ns | .collection _ _ ns | .funcLit _ _ ns | .funcDef _ _ _ ns =>
    simp only [withoutBlankSteps, unplaced, form, formAll_unplacedAll ns]
  | .conditional _ c body none | .whileLoop _ c body =>
    simp only [withoutBlankSteps, unplaced, form, form_unplaced c, formAll_unplacedAll body]
  | .conditional _ c body (some otherwise) =>
    simp only [withoutBlankSteps, unplaced, form, form_unplaced c, formAll_unplacedAll body,
      formAll_unplacedAll otherwise]
  | .forLoop _ _ start stop none body =>
    simp only [withoutBlankSteps, unplaced, form, form_unplaced start, form_unplaced stop,
      formAll_unplacedAll body]
  | .forLoop _ _ start stop (some step) body =>
    rw [withoutBlankSteps]
    split
    · rename_i hblank
      simp only [unplaced, form, form_unplaced start, form_unplaced stop,
        form_of_isUnderscore hblank,
        formAll_unplacedAll body]
    · simp only [unplaced, form, form_unplaced start, form_unplaced stop, form_unplaced step,
        formAll_unplacedAll body]

theorem formAll_unplacedAll (ns : List Node) :
    formAll (unplacedAll (withoutBlankStepsAll ns)) = formAll ns := by
  match ns with
  | [] => rfl
  | n :: ns => exact congrArg₂ List.cons (form_unplaced n) (formAll_unplacedAll ns)

end

def formKind : Node → Form.Kind
  | .number .. | .ident .. => .leaf
  | .unary .. | .binary .. => .operation
  | .call _ builtin _ _ => .call builtin
  | .collection _ sequence _ => .collection sequence
  | .conditional .. => .conditional
  | .whileLoop .. => .whileLoop
  | .forLoop .. => .forLoop
  | .funcLit .. => .funcLit
  | .funcDef .. => .funcDef
  | .hostDecl .. => .hostDecl
  | .ret .. => .ret

theorem Shaped.kind_form {level : Level} {n : Node} (h : n.Shaped level) :
    n.form.kind = n.formKind := by
  have hops : ∀ o ∈ Operator.table, Form.Kind.ofWord o.spelling = .operation := by
    simp [Operator.table, Form.Kind.ofWord]
  cases n with
  | unary _ op x =>
    obtain ⟨rfl, -⟩ := h
    exact hops ⟨"not", .unary, 0⟩ (by decide)
  | binary _ op l r =>
    obtain ⟨⟨o, ho, -, rfl⟩, -⟩ := h
    exact hops o ho
  | call _ builtin => cases builtin <;> rfl
  | collection _ sequence => cases sequence <;> rfl
  | conditional _ _ _ otherwise => cases otherwise <;> rfl
  | forLoop _ _ _ _ step => cases step <;> rfl
  | _ => rfl

theorem general_ne_name {x : Float} {name : String} (hx : Numeral x) (hname : IsName name) :
    Decimal.general x ≠ name := by
  rintro rfl
  obtain ⟨c, cs, hletters, hc, hcs⟩ := hname.spelled
  obtain ⟨-, hwritten | ⟨d, hmem, hsign⟩⟩ := (Decimal.unsigned_of_numeral hx).general_cases
  · obtain ⟨d, ds, hdigits, hd, -⟩ := hwritten.split
    obtain ⟨rfl, -⟩ := List.cons.inj (hletters.symm.trans hdigits)
    rw [not_isLetter_of_isDigit hd] at hc
    cases hc
  · have hword : isWordChar d = true := by
      rw [hletters] at hmem
      obtain rfl | hmem := List.mem_cons.mp hmem
      · simp [isWordChar, hc]
      · exact hcs d hmem
    rcases hsign with rfl | rfl <;> cases hword

theorem isName_underscore : IsName "_" := ⟨⟨'_', [], rfl, rfl, List.forall_mem_nil _⟩, rfl⟩

theorem Shaped.isUnderscore_of_form {level : Level} {n : Node} (hn : n.Shaped level)
    (h : n.form = .word "_") :
    n.isUnderscore = true := by
  have hk : n.formKind = .leaf := by rw [← hn.kind_form, h]; rfl
  cases n with
  | number p x => exact absurd (Form.word.inj h) (general_ne_name hn isName_underscore)
  | ident p name => exact beq_iff_eq.mpr (Form.word.inj h)
  | _ => cases hk

section Steps

variable {p : Position} {var : String} {start stop step : Node} {body : List Node}

theorem withoutBlankSteps_blank (h : step.isUnderscore = true) :
    withoutBlankSteps (.forLoop p var start stop (some step) body) =
      withoutBlankSteps (.forLoop p var start stop none body) := by
  simp only [withoutBlankSteps, h, if_true]

theorem withoutBlankSteps_step (h : ¬ step.isUnderscore = true) :
    withoutBlankSteps (.forLoop p var start stop (some step) body) =
      .forLoop p var start.withoutBlankSteps stop.withoutBlankSteps (some step.withoutBlankSteps)
        (withoutBlankStepsAll body) := by
  simp only [withoutBlankSteps, h, Bool.false_eq_true, if_false]

end Steps

def Apart (ns ms : List Node) : Prop :=
  ∀ n ∈ ns, ∀ m ∈ ms, ∀ x ∈ n.value?, ∀ y ∈ m.value?, Decimal.general x = Decimal.general y → x = y

instance (ns ms : List Node) : Decidable (Apart ns ms) :=
  inferInstanceAs (Decidable (∀ n ∈ ns, ∀ m ∈ ms, ∀ x ∈ n.value?, ∀ y ∈ m.value?, _ → x = y))

theorem Apart.mono {ns ms ns' ms' : List Node} (h : Apart ns ms)
    (hn : ns' ⊆ ns := by intro _ h; simp [preorder, preorderAll, h])
    (hm : ms' ⊆ ms := by intro _ h; simp [preorder, preorderAll, h]) : Apart ns' ms' :=
  fun n hmem m hmem' => h n (hn hmem) m (hm hmem')

mutual

theorem Shaped.form_inj {a b : Level} (n m : Node) (hn : n.Shaped a) (hm : m.Shaped b)
    (hd : Apart n.preorder m.preorder) (h : n.form = m.form) :
    n.withoutBlankSteps.unplaced = m.withoutBlankSteps.unplaced := by
  have hk : n.formKind = m.formKind := by rw [← hn.kind_form, h, hm.kind_form]
  match n with
  | .number _ x =>
    cases m with
    | number _ y =>
      rw [hd _ List.mem_cons_self _ List.mem_cons_self x rfl y rfl (Form.word.inj h)]
      rfl
    | ident _ name => exact absurd (Form.word.inj h) (general_ne_name hn hm)
    | _ => cases hk
  | .ident _ name =>
    cases m with
    | number _ y => exact absurd (Form.word.inj h).symm (general_ne_name hm hn)
    | ident _ name' =>
      rw [Form.word.inj h]
      rfl
    | _ => cases hk
  | .unary _ op x =>
    cases m with
    | unary _ op' x' =>
      simp only [form, Form.list.injEq, List.cons.injEq, Form.word.injEq, and_true] at h
      obtain ⟨rfl, hx⟩ := h
      simp only [withoutBlankSteps, unplaced, Shaped.form_inj x x' hn.2 hm.2 hd.mono hx]
    | binary => simp [form] at h
    | _ => cases hk
  | .binary _ op l r =>
    cases m with
    | binary _ op' l' r' =>
      simp only [form, Form.list.injEq, List.cons.injEq, Form.word.injEq, and_true] at h
      obtain ⟨rfl, hl, hr⟩ := h
      simp only [withoutBlankSteps, unplaced, Shaped.form_inj l l' hn.2.1 hm.2.1 hd.mono hl,
        Shaped.form_inj r r' hn.2.2 hm.2.2 hd.mono hr]
    | unary => simp [form] at h
    | _ => cases hk
  | .call _ builtin callee args =>
    cases m with
    | call _ builtin' callee' args' =>
      obtain rfl : builtin = builtin' := Form.Kind.call.inj hk
      simp only [form, Form.list.injEq, List.cons.injEq, Form.word.injEq, true_and] at h
      obtain ⟨rfl, hargs⟩ := h
      have hn : ShapedAll .operand args := by cases builtin <;> exact hn.2
      have hm : ShapedAll .operand args' := by cases builtin <;> exact hm.2
      simp only [withoutBlankSteps, unplaced, ShapedAll.formAll_inj args args' hn hm hd.mono hargs]
    | _ => cases hk
  | .collection _ sequence elements =>
    cases m with
    | collection _ sequence' elements' =>
      obtain rfl : sequence = sequence' := Form.Kind.collection.inj hk
      simp only [form, Form.list.injEq, List.cons.injEq, true_and] at h
      simp only [withoutBlankSteps, unplaced,
        ShapedAll.formAll_inj elements elements' hn.2 hm.2 hd.mono h]
    | _ => cases hk
  | .conditional _ c body none =>
    cases m with
    | conditional _ c' body' otherwise =>
      cases otherwise with
      | none =>
        simp only [form, Form.list.injEq, List.cons.injEq, true_and, and_true] at h
        simp only [withoutBlankSteps, unplaced, Shaped.form_inj c c' hn.2.1 hm.2.1 hd.mono h.1,
          ShapedAll.formAll_inj body body' hn.2.2 hm.2.2 hd.mono h.2]
      | some => simp [form] at h
    | _ => cases hk
  | .conditional _ c body (some otherwise) =>
    cases m with
    | conditional _ c' body' otherwise' =>
      cases otherwise' with
      | none => simp [form] at h
      | some otherwise' =>
        simp only [form, Form.list.injEq, List.cons.injEq, true_and, and_true] at h
        simp only [withoutBlankSteps, unplaced, Shaped.form_inj c c' hn.2.1 hm.2.1 hd.mono h.1,
          ShapedAll.formAll_inj body body' hn.2.2.1 hm.2.2.1 hd.mono h.2.1,
          ShapedAll.formAll_inj otherwise otherwise' hn.2.2.2 hm.2.2.2 hd.mono h.2.2]
    | _ => cases hk
  | .whileLoop _ c body =>
    cases m with
    | whileLoop _ c' body' =>
      simp only [form, Form.list.injEq, List.cons.injEq, true_and] at h
      simp only [withoutBlankSteps, unplaced, Shaped.form_inj c c' hn.2.1 hm.2.1 hd.mono h.1,
        ShapedAll.formAll_inj body body' hn.2.2 hm.2.2 hd.mono h.2]
    | _ => cases hk
  | .forLoop _ var start stop none body =>
    cases m with
    | forLoop _ var' start' stop' step' body' =>
      cases step' with
      | none =>
        simp only [form, Form.list.injEq, List.cons.injEq, Form.word.injEq, true_and] at h
        obtain ⟨rfl, hstart, hstop, hbody⟩ := h
        simp only [withoutBlankSteps, unplaced,
          Shaped.form_inj start start' hn.2.2.1 hm.2.2.1 hd.mono hstart,
          Shaped.form_inj stop stop' hn.2.2.2.1 hm.2.2.2.1 hd.mono hstop,
          ShapedAll.formAll_inj body body' hn.2.2.2.2 hm.2.2.2.2 hd.mono hbody]
      | some step' =>
        simp only [form, Form.list.injEq, List.cons.injEq, Form.word.injEq, true_and] at h
        obtain ⟨rfl, hstart, hstop, hstep, hbody⟩ := h
        rw [withoutBlankSteps_blank (hm.2.2.2.2.1.isUnderscore_of_form hstep.symm)]
        simp only [withoutBlankSteps, unplaced,
          Shaped.form_inj start start' hn.2.2.1 hm.2.2.1 hd.mono hstart,
          Shaped.form_inj stop stop' hn.2.2.2.1 hm.2.2.2.1 hd.mono hstop,
          ShapedAll.formAll_inj body body' hn.2.2.2.2 hm.2.2.2.2.2 hd.mono hbody]
    | _ => cases hk
  | .forLoop _ var start stop (some step) body =>
    cases m with
    | forLoop _ var' start' stop' step' body' =>
      cases step' with
      | none =>
        simp only [form, Form.list.injEq, List.cons.injEq, Form.word.injEq, true_and] at h
        obtain ⟨rfl, hstart, hstop, hstep, hbody⟩ := h
        rw [withoutBlankSteps_blank (hn.2.2.2.2.1.isUnderscore_of_form hstep)]
        simp only [withoutBlankSteps, unplaced,
          Shaped.form_inj start start' hn.2.2.1 hm.2.2.1 hd.mono hstart,
          Shaped.form_inj stop stop' hn.2.2.2.1 hm.2.2.2.1 hd.mono hstop,
          ShapedAll.formAll_inj body body' hn.2.2.2.2.2 hm.2.2.2.2 hd.mono hbody]
      | some step' =>
        simp only [form, Form.list.injEq, List.cons.injEq, Form.word.injEq, true_and] at h
        obtain ⟨rfl, hstart, hstop, hstep, hbody⟩ := h
        have hstart := Shaped.form_inj start start' hn.2.2.1 hm.2.2.1 hd.mono hstart
        have hstop := Shaped.form_inj stop stop' hn.2.2.2.1 hm.2.2.2.1 hd.mono hstop
        have hbody := ShapedAll.formAll_inj body body' hn.2.2.2.2.2 hm.2.2.2.2.2 hd.mono hbody
        by_cases hblank : step.isUnderscore = true
        · have hblank' := hm.2.2.2.2.1.isUnderscore_of_form
            (hstep.symm.trans (form_of_isUnderscore hblank))
          rw [withoutBlankSteps_blank hblank, withoutBlankSteps_blank hblank']
          simp only [withoutBlankSteps, unplaced, hstart, hstop, hbody]
        · have hblank' : ¬ step'.isUnderscore = true := fun h =>
            hblank (hn.2.2.2.2.1.isUnderscore_of_form (hstep.trans (form_of_isUnderscore h)))
          rw [withoutBlankSteps_step hblank, withoutBlankSteps_step hblank']
          simp only [unplaced, hstart, hstop, hbody,
            Shaped.form_inj step step' hn.2.2.2.2.1 hm.2.2.2.2.1 hd.mono hstep]
    | _ => cases hk
  | .funcLit _ params body =>
    cases m with
    | funcLit _ params' body' =>
      simp only [form, Form.names, Form.list.injEq, List.cons.injEq, true_and] at h
      obtain rfl := List.map_injective_iff.mpr (fun _ _ h => Form.word.inj h) h.1
      simp only [withoutBlankSteps, unplaced,
        ShapedAll.formAll_inj body body' hn.2 hm.2 hd.mono h.2]
    | _ => cases hk
  | .funcDef _ name params body =>
    cases m with
    | funcDef _ name' params' body' =>
      simp only [form, Form.names, Form.list.injEq, List.cons.injEq, Form.word.injEq, true_and] at h
      obtain ⟨rfl, hparams, hbody⟩ := h
      obtain rfl := List.map_injective_iff.mpr (fun _ _ h => Form.word.inj h) hparams
      simp only [withoutBlankSteps, unplaced,
        ShapedAll.formAll_inj body body' hn.2.2.2 hm.2.2.2 hd.mono hbody]
    | _ => cases hk
  | .hostDecl _ name params =>
    cases m with
    | hostDecl _ name' params' =>
      simp only [form, Form.names, Form.list.injEq, List.cons.injEq, Form.word.injEq, true_and,
        and_true] at h
      obtain ⟨rfl, hparams⟩ := h
      obtain rfl := List.map_injective_iff.mpr (fun _ _ h => Form.word.inj h) hparams
      rfl
    | _ => cases hk
  | .ret _ x =>
    cases m with
    | ret _ x' =>
      simp only [form, Form.list.injEq, List.cons.injEq, true_and, and_true] at h
      simp only [withoutBlankSteps, unplaced, Shaped.form_inj x x' hn.2 hm.2 hd.mono h]
    | _ => cases hk

theorem ShapedAll.formAll_inj {a b : Level} (ns ms : List Node) (hn : ShapedAll a ns)
    (hm : ShapedAll b ms)
    (hd : Apart (preorderAll ns) (preorderAll ms)) (h : formAll ns = formAll ms) :
    unplacedAll (withoutBlankStepsAll ns) = unplacedAll (withoutBlankStepsAll ms) := by
  match ns, ms with
  | [], [] => rfl
  | [], m :: ms => cases h
  | n :: ns, [] => cases h
  | n :: ns, m :: ms =>
    obtain ⟨hhead, htail⟩ := List.cons.inj h
    exact congrArg₂ List.cons (Shaped.form_inj n m hn.1 hm.1 hd.mono hhead)
      (ShapedAll.formAll_inj ns ms hn.2 hm.2 hd.mono htail)

end

end Node

namespace Program

variable {source source' : String} {p q : Program}

theorem text_sexp (p : Program) : (Form.list (.word "program" :: Node.formAll p)).text =
    p.sexp.toList := by
  rw [show p.sexp = "(program" ++ Node.sexpAll p ++ ")" from rfl]
  simp [Form.text, Node.textAll_formAll]

/-- The compact form of a program tells it apart from every other, up to positions and the steps
that are the variable `_`. -/
theorem sexp_eq_iff (hp : parse source = .ok p) (hq : parse source' = .ok q)
    (hd : Node.Apart (Node.preorderAll p) (Node.preorderAll q)) : p.sexp = q.sexp ↔
    Node.unplacedAll (Node.withoutBlankStepsAll p) = Node.unplacedAll
    (Node.withoutBlankStepsAll q) := by
  have hp := shaped_of_parse hp
  have hq := shaped_of_parse hq
  constructor
  · intro h
    have htext := congrArg String.toList h
    rw [← text_sexp, ← text_sexp] at htext
    have hword : (Form.word "program").Proper := by decide
    have hproper {p : Program} (hp : Node.ShapedAll .top p) :
        (Form.list (.word "program" :: Node.formAll p)).Proper := ⟨hword,
          Node.ShapedAll.proper _ p hp⟩
    obtain ⟨hforms, -⟩ := Form.text_inj _ _ (hproper hp) (hproper hq) (r := [])
      (s := []) nofun nofun
      (congrArg (· ++ []) htext)
    exact Node.ShapedAll.formAll_inj p q hp hq hd (List.cons.inj (Form.list.inj hforms)).2
  · intro h
    apply String.toList_injective
    rw [← text_sexp, ← text_sexp, ← Node.formAll_unplacedAll p, h, Node.formAll_unplacedAll]

theorem sexp_eq_iff_layouts : ∃ p q, parse "[a, |0.5|]" = .ok p ∧ parse "[a,|0.50|] # c" = .ok q ∧
    Node.Apart (Node.preorderAll p) (Node.preorderAll q) ∧ p.sexp = q.sexp ∧
    Node.unplacedAll (Node.withoutBlankStepsAll p) = Node.unplacedAll
    (Node.withoutBlankStepsAll q) := by
  have hok {s : String} {p : Program} (h : (parse s).toOption = some p) : parse s = .ok p := by
    cases hq : parse s with
    | error d => rw [hq] at h; cases h
    | ok q => rw [hq] at h; exact congrArg _ (Option.some.inj h)
  have hall : (parse "[a, |0.5|]").toOption.any
    (fun p => (parse "[a,|0.50|] # c").toOption.any fun q =>
      decide (Node.Apart (Node.preorderAll p) (Node.preorderAll q) ∧ sexp p = sexp q)) =
        true := by decide +kernel
  obtain ⟨p, hp, hall⟩ := (Option.any_eq_true _ _).mp hall
  obtain ⟨q, hq, hall⟩ := (Option.any_eq_true _ _).mp hall
  obtain ⟨hd, hsexp⟩ := of_decide_eq_true hall
  exact ⟨p, q, hok hp, hok hq, hd, hsexp, (sexp_eq_iff (hok hp) (hok hq) hd).mp hsexp⟩

theorem sexp_hides_step : ∃ p q, parse "for i = a, n, _ done" = .ok p ∧
    parse "for i = a, n done" = .ok q ∧
    p.sexp = q.sexp ∧ Node.unplacedAll p ≠ Node.unplacedAll q := by
  let p : Program := [.forLoop ⟨1, 1⟩ "i" (.ident ⟨1, 9⟩ "a") (.ident ⟨1, 12⟩ "n")
    (some (.ident ⟨1, 15⟩ "_")) []]
  let q : Program := [.forLoop ⟨1, 1⟩ "i" (.ident ⟨1, 9⟩ "a") (.ident ⟨1, 12⟩ "n") none []]
  refine ⟨p, q, by cbv, by cbv, by decide +kernel, ?_⟩
  simp [p, q, Node.unplacedAll, Node.unplaced]

end Program

end RealScript
