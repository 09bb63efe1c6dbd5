import RealScript.Proofs.Machine.Soundness
import RealScript.Proofs.Session.Lawful

/-! # The native functions of a session

The built-in functions keep to their types, and so do those of the host. Every native function that
a session declares is one of them.
-/

namespace RealScript

inductive Action.Modest : Action → Prop where
  | done (v : Value) : Modest (.done v)
  | notFunction : Modest (.fail .notFunction)
  | call {r : Option FuncRef} {args : List Value} {next : Value → Action} : (∀ v, Modest (next v)) →
      Modest (.call r args next)
  | proceed {next : Action} : Modest next → Modest (.proceed next)
  | enterPool {next : Action} : Modest next → Modest (.enterPool next)
  | write {bytes : List UInt8} {next : Action} : Modest next → Modest (.write bytes next)

theorem Action.Modest.forwards {a : Action} (h : a.Modest) : a.Forwards := by
  induction h with
  | done | notFunction => trivial
  | call _ ih => exact forwards_call ih
  | proceed _ ih | enterPool _ ih | write _ ih => exact ih

namespace Builtin

theorem modest_each (f : FuncRef) {next : List Value → Action} (hn : ∀ vs, (next vs).Modest)
    (found : List Value) (xs : List Float) : (each f next found xs).Modest := by
  induction xs generalizing found with
  | nil => exact hn _
  | cons x xs ih => exact .proceed (.call fun v => ih (v :: found))

theorem modest_scatter (callback : Value) (xs : List Float) {next : List Value → Action}
    (hn : ∀ vs, (next vs).Modest) : (scatter callback xs next).Modest := by
  unfold scatter
  split
  · exact .notFunction
  · exact .enterPool (modest_each _ hn [] xs)

theorem modest_foldFrom (f : FuncRef) (acc : Float) (xs : List Float) :
    (foldFrom f acc xs).Modest := by
  induction xs generalizing acc with
  | nil => exact .done _
  | cons x xs ih => exact .call fun v => ih v.toNumber

theorem modest_natives {name : String} {native : Native} (h : natives.lookup name = some native)
    (hname : name ≠ "read") (args : List Value) : (native args).Modest := by
  obtain ⟨pre, post, he, -⟩ := List.lookup_eq_some_iff.mp h
  have hmem : (name, native) ∈ natives := by simp [he]
  rcases List.mem_append.mp hmem with hm | hm
  · simp only [table, List.map_cons, List.map_nil, List.mem_cons, List.not_mem_nil, or_false,
      Prod.mk.injEq] at hm
    rcases hm with ⟨hread, -⟩ | ⟨-, rfl⟩ | ⟨-, rfl⟩ | ⟨-, rfl⟩ | ⟨-, rfl⟩ | ⟨-, rfl⟩
    · exact absurd hread hname
    · exact .write (.done _)
    · exact .done _
    · exact modest_scatter _ _ fun _ => .done _
    · exact modest_scatter _ _ fun _ => .done _
    · unfold fold
      split
      · exact .notFunction
      · exact modest_foldFrom _ _ _
  · -- A host function computes its result at once, or writes and is done.
    obtain ⟨h, hh, he⟩ := List.mem_map.mp hm
    cases he
    simp only [Host.table, List.mem_cons, List.not_mem_nil, or_false] at hh
    rcases hh with rfl | rfl | rfl | rfl | rfl | rfl | rfl | rfl | rfl | rfl | rfl | rfl | rfl <;>
      first | exact .done _ | exact .write (.done _)

theorem forwards_readNumbers (input : InputWords) (found : List Float) (ws : List Text.Word) :
    (readNumbers input found ws).Forwards := by
  induction ws generalizing found with
  | nil =>
    rw [readNumbers, Action.Forwards]
    cases input.cause? <;> trivial
  | cons w ws ih =>
    rw [readNumbers, Action.Forwards, Action.Forwards]
    split
    · exact ih _
    · trivial

theorem forwards_natives {name : String} {native : Native} (h : natives.lookup name = some native)
    (args : List Value) : (native args).Forwards := by
  by_cases hname : name = "read"
  · subst hname
    obtain rfl : read = native := Option.some.inj h
    exact fun input => forwards_readNumbers input [] input.words.found
  · exact (modest_natives h hname args).forwards

variable {E : Setting} {globals : Array Value} {args : List Value}

theorem honest_readNumbers (input : InputWords) (found : List Float) (ws : List Text.Word) :
    E.Honest globals .collection (readNumbers input found ws) := by
  induction ws generalizing found with
  | nil =>
    rw [readNumbers]
    rw [Setting.Honest]
    cases hc : input.cause? with
    | none => exact .collection _
    | some cause =>
      unfold InputWords.cause? at hc
      split at hc
      · cases hc
        trivial
      · obtain ⟨_, -, rfl⟩ := Option.map_eq_some_iff.mp hc
        trivial
  | cons w ws ih =>
    rw [readNumbers]
    rw [Setting.Honest, Setting.Honest]
    split
    · exact ih _
    · trivial

theorem honest_each {f : FuncRef} (ho : E.module.Offers f) (hr : E.Ready globals f.id)
    (hp : f.params = [.real]) {ret : Ty} {next : List Value → Action}
    (hn : ∀ vs, E.Honest globals ret (next vs)) (found : List Value) (xs : List Float) :
    E.Honest globals ret (each f next found xs) := by
  induction xs generalizing found with
  | nil => exact hn _
  | cons x xs ih =>
    exact ⟨ho, hr, hp ▸ .cons (.number x (.inl rfl)) .nil, fun v _ => ih (v :: found), fun _ => rfl⟩

theorem honest_scatter {callback : Value} (h : E.Holds globals callback (.func 1)) (xs : List Float)
    {ret : Ty} {next : List Value → Action} (hn : ∀ vs, E.Honest globals ret (next vs)) :
    E.Honest globals ret (scatter callback xs next) := by
  unfold scatter
  rcases h.function with hnone | ⟨r, rfl, ho, hr, hp, -⟩
  · rw [hnone]
    trivial
  · exact honest_each ho hr hp hn [] xs

theorem honest_foldFrom {f : FuncRef} (ho : E.module.Offers f) (hr : E.Ready globals f.id)
    (hp : f.params = [.real, .real]) (acc : Float) (xs : List Float) :
    E.Honest globals .real (foldFrom f acc xs) := by
  induction xs generalizing acc with
  | nil => exact .number acc (.inl rfl)
  | cons x xs ih =>
    exact ⟨ho, hr, hp ▸ .cons (.number acc (.inl rfl)) (.cons (.number x (.inl rfl)) .nil),
      fun v _ => ih v.toNumber, fun _ => rfl⟩

theorem honest_of_mem_table {b : Builtin} (hb : b ∈ table)
    (ha : List.Forall₂ (E.Holds globals) args b.params) :
    E.Honest globals b.ret (b.native args) := by
  simp only [table, List.mem_cons, List.not_mem_nil, or_false] at hb
  rcases hb with rfl | rfl | rfl | rfl | rfl | rfl
  · exact fun input => honest_readNumbers input [] input.words.found
  · exact Setting.holds_zero _ _
  · exact .number _ (.inl rfl)
  · have hf : E.Holds globals (arg args 0) (.func 1) := getD_of_forall₂ ha rfl _
    exact honest_scatter hf _ fun vs => .collection _
  · have hf : E.Holds globals (arg args 0) (.func 1) := getD_of_forall₂ ha rfl _
    exact honest_scatter hf _ fun vs => .collection _
  · have hf : E.Holds globals (arg args 0) (.func 2) := getD_of_forall₂ ha rfl _
    change E.Honest globals .real (fold args)
    unfold fold
    rcases hf.function with hnone | ⟨r, he, ho, hr, hp, -⟩
    · rw [hnone]
      trivial
    · rw [he]
      exact honest_foldFrom ho hr hp _ _

theorem lookup_of_mem_table {b : Builtin} (hb : b ∈ table) :
    natives.lookup b.name = some b.native := by
  simp only [table, List.mem_cons, List.not_mem_nil, or_false] at hb
  rcases hb with rfl | rfl | rfl | rfl | rfl | rfl <;> simp [natives, table, List.lookup]

theorem function_of_declareAll {bs : List Builtin} {m : Module} {k : Nat} {f : Function}
    (hm : m.Fresh) (hb : ∀ b ∈ bs, Lowering.Plain b.name)
    (hf : (declareAll bs m).2.function? k = some f) :
    m.function? k = some f ∨ ∃ b ∈ bs, f.name = b.name ∧ f.ref.params = b.params ∧
    f.ref.ret = b.ret := by
  induction bs generalizing m with
  | nil => exact .inl hf
  | cons b bs ih =>
    have hb' : ∀ b' ∈ bs, Lowering.Plain b'.name := fun b' h => hb b' (List.mem_cons_of_mem _ h)
    rw [declareAll] at hf
    cases hd : m.declareNative b.name b.params b.ret with
    | error e =>
      rw [hd] at hf
      exact .inl hf
    | ok x =>
      obtain ⟨f', m'⟩ := x
      rw [hd] at hf
      have hm' : m'.Fresh := .native hm (.of_plain (hb b List.mem_cons_self)) hd
      rcases ih hm' hb' hf with hf | ⟨b', hmem, h⟩
      · cases hfind : m.find? b.name with
        | some g =>
          have hg := (hm.untouched.function g (Array.mem_toList_iff.mp
            (List.mem_filter.mp (List.mem_of_find?_eq_some hfind)).1)).1
          simp only [Module.declareNative, Module.declare, hfind, hg, Bool.or_true, if_true] at hd
          split at hd <;> cases hd
        | none =>
          obtain ⟨names, hnew⟩ := Module.declareNative_of_find? hfind b.params b.ret
          rw [hnew] at hd
          obtain ⟨-, rfl⟩ := Prod.mk.inj (Except.ok.inj hd)
          rw [Module.function?_push] at hf
          split at hf
          · cases hf
            exact .inr ⟨b, List.mem_cons_self, rfl, rfl, rfl⟩
          · exact .inl hf
      · exact .inr ⟨b', List.mem_cons_of_mem _ hmem, h⟩

theorem plain_of_mem_table {b : Builtin} (hb : b ∈ table) : Lowering.Plain b.name := by
  simp only [table, List.mem_cons, List.not_mem_nil, or_false] at hb
  rcases hb with rfl | rfl | rfl | rfl | rfl | rfl <;> simp [Lowering.Plain]

theorem not_nameable_of_mem_table {b : Builtin} (hb : b ∈ table) : ¬ Nameable b.name := by
  rintro (h | ⟨n, h⟩)
  · have hfree := h.free
    simp only [table, List.mem_cons, List.not_mem_nil, or_false] at hb
    rcases hb with rfl | rfl | rfl | rfl | rfl | rfl <;>
      simp [Lexeme.ofWord, Keyword.find?, Keyword.all, Keyword.spelling, reservedNames] at hfree
  · exact Lowering.not_plain_funcName n (h ▸ plain_of_mem_table hb)

theorem function_of_moduleNamed {name : String} {k : Nat} {f : Function}
    (hf : (moduleNamed name).function? k = some f) :
    ∃ b ∈ table, f.name = b.name ∧ f.ref.params = b.params ∧ f.ref.ret = b.ret := by
  refine (function_of_declareAll (.empty name) (fun b => plain_of_mem_table) hf).resolve_left ?_
  simp [Module.function?]

end Builtin

namespace Host

variable {E : Setting} {globals : Array Value}

theorem honest_of_mem_table {h : Host} (hh : h ∈ table) (args : List Value) :
    E.Honest globals .real (h.native args) := by
  simp only [table, List.mem_cons, List.not_mem_nil, or_false] at hh
  rcases hh with rfl | rfl | rfl | rfl | rfl | rfl | rfl | rfl | rfl | rfl | rfl | rfl | rfl <;>
    exact .number _ (.inl rfl)

theorem lookup_of_mem_table {h : Host} (hh : h ∈ table) :
    Builtin.natives.lookup h.name = some h.native := by
  simp only [table, List.mem_cons, List.not_mem_nil, or_false] at hh
  rcases hh with rfl | rfl | rfl | rfl | rfl | rfl | rfl | rfl | rfl | rfl | rfl | rfl | rfl <;>
    simp [Builtin.natives, Builtin.table, table, unary, binary, List.lookup]

end Host

theorem Lowering.Lawful.sound {reach : Nat → Nat} {l : Lowering}
    (h : l.Lawful (Builtin.moduleNamed "do") reach) (hh : l.hosts = Host.signatures) {m : Machine}
    (hm : m.module = l.module) (hn : m.natives = Builtin.natives) (first : Nat)
    (excused : Fact → Prop) : Setting.Sound ⟨m, reach, first, excused⟩ := by
  have hmodule : Setting.module ⟨m, reach, first, excused⟩ = l.module := hm
  refine ⟨⟨?_, ?_, ?_, ?_⟩, ?_⟩ <;> rw [hmodule]
  · exact h.code
  · rintro r ⟨⟨f, hf, rfl⟩, hname⟩ hnameable
    cases h.origin _ f hf with
    | base hb =>
      obtain ⟨b, hb, hbn, -⟩ := Builtin.function_of_moduleNamed hb
      exact absurd (hbn ▸ hnameable) (Builtin.not_nameable_of_mem_table hb)
    | written hw _ => exact ⟨hw.params, hw.ret⟩
    | @entry n hr _ => exact absurd (by rw [hr]) (hname n)
  · intro k f hf hnative n hn
    cases h.origin k f hf with
    | base hb =>
      rw [((Builtin.fresh_moduleNamed "do").untouched.function f
        (Array.mem_of_getElem? hb)).1] at hnative
      cases hnative
    | written hw _ => cases hw.params _ hn
    | entry hr _ =>
      rw [hr] at hn
      cases hn
  · rintro r ⟨⟨f, hf, rfl⟩, -⟩ n hn
    cases h.origin _ f hf with
    | base hb =>
      obtain ⟨b, hb, -, -, hret⟩ := Builtin.function_of_moduleNamed hb
      rw [hret] at hn
      simp only [Builtin.table, List.mem_cons, List.not_mem_nil, or_false] at hb
      rcases hb with rfl | rfl | rfl | rfl | rfl | rfl <;> cases hn
    | written hw _ =>
      rw [hw.ret] at hn
      cases hn
    | entry hr _ =>
      rw [hr] at hn
      cases hn
  · intro k f hf hnative
    have hlook : ∀ name, Machine.native? m name = Builtin.natives.lookup name := by
      intro name
      rw [Machine.native?, hn]
    simp only [hlook]
    cases h.origin k f hf with
    | base hb =>
      obtain ⟨b, hb, hbn, hp, hr⟩ := Builtin.function_of_moduleNamed hb
      refine ⟨b.native, by rw [hbn]; exact Builtin.lookup_of_mem_table hb,
        fun globals args ha => ?_⟩
      rw [hr]
      exact Builtin.honest_of_mem_table hb (hp ▸ ha)
    | written hw hhost =>
      have hmem := hhost hnative
      rw [hh, Host.signatures] at hmem
      obtain ⟨host, hmem, he⟩ := List.mem_map.mp hmem
      obtain ⟨hname, -⟩ := Prod.mk.inj he
      refine ⟨host.native, by rw [← hname]; exact Host.lookup_of_mem_table hmem,
        fun globals args _ => ?_⟩
      rw [hw.ret]
      exact Host.honest_of_mem_table hmem args
    | entry _ hn => rw [hn] at hnative; cases hnative

end RealScript
