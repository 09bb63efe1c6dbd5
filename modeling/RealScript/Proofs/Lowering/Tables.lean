import RealScript.Proofs.Lowering.Units

/-! # Tables and orders

Functions can be kept twice, in a table by their names and in the order of their declarations, and
so can the names of the bottom frame. A declaration then changes a table and an order. Undoing a
unit takes what it declared out of the tables, name by name, and out of the orders. If this is done
along with lowering, table and order never differ, and both hold what lowering itself goes by.
-/

namespace RealScript

structure Tables where
  funcs : String → Option FuncRef
  order : List FuncRef
  vars : String → Option Slot
  names : List String

namespace Tables

variable {d d' : Tables} {s t t' : Lowering}

def empty : Tables := ⟨fun _ => none, [], fun _ => none, []⟩

def declare (d : Tables) (r : FuncRef) : Tables :=
  { d with funcs := Function.update d.funcs r.name (some r), order := d.order ++ [r] }

def bind (d : Tables) (name : String) (slot : Slot) : Tables :=
  { d with vars := Function.update d.vars name (some slot), names := d.names ++ [name] }

def remove (d : Tables) (name : String) : Tables := if d.funcs name = none then d
  else { d with funcs := Function.update d.funcs name none, order := d.order.eraseP (·.name ==
    name) }

/-- Unbinds the names behind the first `n`. -/
def cut (d : Tables) (n : Nat) : Tables :=
  let vars := (d.names.drop n).foldl (fun vars name => Function.update vars name none) d.vars
  { d with vars := vars, names := d.names.take n }

def undo (d : Tables) (fs : List FuncRef) (n : Nat) : Tables :=
  (fs.foldl (fun d f => d.remove f.name) d).cut n

/-- A step of lowering with what it does to the tables. -/
inductive Doubles : Tables × Lowering → Tables × Lowering → Prop where
  | declare {d : Tables} {s : Lowering} {f : Function} {point : Option BlockRef} :
      Lowering.Step s (s.push f point) → f.listed = true → s.module.find? f.name = none →
      Doubles (d, s) (d.declare f.ref, s.push f point)
  | bind {d : Tables} {s t : Lowering} {name : String} {slot : Slot} : Lowering.Step s t →
      t.module.refs = s.module.refs → t.scopes.globals = s.scopes.globals ++ [(name, slot)] →
      s.scopes.globals.lookup name = none → Doubles (d, s) (d.bind name slot, t)
  | quiet {d : Tables} {s t : Lowering} : Lowering.Step s t → t.module.refs = s.module.refs →
      t.scopes.globals = s.scopes.globals → Doubles (d, s) (d, t)

def Doubled : Tables × Lowering → Tables × Lowering → Prop := Relation.ReflTransGen Doubles

theorem exists_doubles (ho : s.Orderly) (hs : Lowering.Step s t) (d : Tables) :
    ∃ d', Doubles (d, s) (d', t) := by
  have hstep := hs
  cases hs with
  | build hoff hx =>
    obtain ⟨r, f, g, -, hf, hg, -, he⟩ := ho.exists_grows (hoff.change hx)
    refine ⟨d, .quiet hstep ?_ rfl⟩
    rw [he]
    exact (Module.growsIn_modify hf hg).refs
  | define hfree _ => exact ⟨_, .declare hstep rfl hfree⟩
  | host hfree _ _ => exact ⟨_, .declare hstep rfl hfree⟩
  | @bindLocal frame outer f name ty _ _ hf _ =>
    have hid := ho.numbered _ _ hf
    exact ⟨d, .quiet hstep (Module.growsIn_modify (hid ▸ hf) (f.grows_addSlot name ty)).refs rfl⟩
  | bindGlobal _ _ hnone _ => exact ⟨_, .bind hstep rfl rfl hnone⟩
  | moveTo | enter | leave | deepen | count => exact ⟨d, .quiet hstep rfl rfl⟩

theorem exists_doubled (ho : s.Orderly) (hs : Lowering.Steps s t) (d : Tables) :
    ∃ d', Doubled (d, s) (d', t) := by
  induction hs with
  | refl => exact ⟨d, .refl⟩
  | tail hs hstep ih =>
    obtain ⟨d', ih⟩ := ih
    obtain ⟨d'', h⟩ := exists_doubles (ho.steps hs) hstep d'
    exact ⟨d'', ih.tail h⟩

theorem Doubled.steps {x y : Tables × Lowering} (h : Doubled x y) : Lowering.Steps x.2 y.2 := by
  induction h with
  | refl => exact .refl
  | tail _ h ih =>
    cases h with
    | declare h | bind h | quiet h => exact .tail ih h

/-- The table holds what the order holds. -/
def Paired (funcs : String → Option FuncRef) (order : List FuncRef) : Prop :=
  ∀ name, funcs name = order.find? (·.name == name)

structure Refines (d : Tables) (s : Lowering) : Prop where
  order : d.order = s.module.refs
  funcs : Paired d.funcs d.order
  names : d.names = s.scopes.globals.map Prod.fst
  vars : ∀ name, d.vars name = s.scopes.globals.lookup name

theorem Refines.congr (h : d.Refines s) (hr : t.module.refs = s.module.refs)
    (hg : t.scopes.globals = s.scopes.globals) : d.Refines t := by
  refine ⟨hr ▸ h.order, h.funcs, ?_, ?_⟩ <;> rw [hg]
  · exact h.names
  · exact h.vars

theorem Paired.declare {funcs : String → Option FuncRef} {order : List FuncRef} {r : FuncRef}
    (h : Paired funcs order) (hr : r.name ∉ order.map (·.name)) :
    Paired (Function.update funcs r.name (some r)) (order ++ [r]) := by
  intro name
  rw [List.find?_append]
  by_cases hn : name = r.name
  · subst hn
    have hnone : order.find? (·.name == r.name) = none := by
      rw [List.find?_eq_none]
      intro x hx he
      exact hr (List.mem_map.mpr ⟨x, hx, by simpa using he⟩)
    rw [Function.update_self, hnone]
    simp
  · rw [Function.update_of_ne hn, h]
    have : (r.name == name) = false := by simpa using fun he => hn he.symm
    simp [this]

theorem foldl_declare (rs : List FuncRef) (h : Paired d.funcs d.order)
    (hd : ((d.order ++ rs).map (·.name)).Nodup) :
    ∃ funcs, rs.foldl declare d = { d with funcs := funcs, order := d.order ++ rs } ∧
      Paired funcs (d.order ++ rs) := by
  induction rs generalizing d with
  | nil => exact ⟨d.funcs, by simp, by simpa using h⟩
  | cons r rs ih =>
    have hr : r.name ∉ d.order.map (·.name) := by
      rw [List.map_append, List.map_cons, List.nodup_append] at hd
      exact fun hmem => hd.2.2 _ hmem _ List.mem_cons_self rfl
    simpa [declare] using ih (d := d.declare r) (h.declare hr) (by simpa [declare] using hd)

theorem Refines.doubles (h : d.Refines s) (hs : Doubles (d, s) (d', t)) : d'.Refines t := by
  cases hs with
  | @declare _ _ f point _ hl hfree =>
    have hnew : f.ref.name ∉ d.order.map (·.name) := by
      rw [h.order]
      intro hmem
      obtain ⟨r, hr, he⟩ := List.mem_map.mp hmem
      exact Module.find?_eq_none_iff.mp hfree r hr he
    refine ⟨?_, h.funcs.declare hnew, h.names, h.vars⟩
    have hrefs : (s.push f point).module.refs = s.module.refs ++ [f.ref] := Module.refs_push hl
    rw [hrefs, ← h.order]
    rfl
  | @bind _ _ _ name slot _ hr hg hnone =>
    refine ⟨hr ▸ h.order, h.funcs, ?_, fun x => ?_⟩
    · rw [hg, List.map_append, ← h.names]
      rfl
    · change Function.update d.vars name (some slot) x = _
      rw [hg, List.lookup_append]
      by_cases hx : x = name
      · subst hx
        rw [Function.update_self, hnone]
        simp
      · have : (x == name) = false := by simpa using hx
        rw [Function.update_of_ne hx, h.vars]
        simp [List.lookup_cons, this]
  | quiet _ hr hg => exact h.congr hr hg

theorem Refines.doubled (h : d.Refines s) (hs : Doubled (d, s) (d', t)) : d'.Refines t := by
  have hall : ∀ x, Doubled (d, s) x → x.1.Refines x.2 := by
    intro x hx
    induction hx with
    | refl => exact h
    | tail _ hstep ih => exact ih.doubles hstep
  exact hall _ hs

theorem eraseP_name {rs : List FuncRef} (hd : (rs.map (·.name)).Nodup) (name : String) :
    rs.eraseP (·.name == name) = rs.filter fun r => r.name != name := by
  induction rs with
  | nil => rfl
  | cons r rs ih =>
    rw [List.map_cons, List.nodup_cons] at hd
    by_cases h : r.name = name
    · subst h
      rw [List.eraseP_cons_of_pos (by simp), List.filter_cons_of_neg (by simp)]
      refine (List.filter_eq_self.mpr fun x hx => ?_).symm
      have : x.name ≠ r.name := fun he => hd.1 (he ▸ List.mem_map_of_mem hx)
      simpa using this
    · rw [List.eraseP_cons_of_neg (by simpa using h), List.filter_cons_of_pos (by simpa using h),
        ih hd.2]

theorem remove_eq (h : Paired d.funcs d.order) (hd : (d.order.map (·.name)).Nodup) (name : String) :
    ∃ funcs, d.remove name = { d with funcs := funcs, order := d.order.filter (·.name != name) } ∧
      Paired funcs (d.order.filter (·.name != name)) := by
  unfold remove
  split
  · rename_i hnone
    rw [h, List.find?_eq_none] at hnone
    rw [List.filter_eq_self.mpr fun r hr => by simpa using hnone r hr]
    exact ⟨d.funcs, rfl, h⟩
  · rw [eraseP_name hd]
    refine ⟨_, rfl, fun n => ?_⟩
    rw [List.find?_filter]
    by_cases hn : n = name
    · subst hn
      rw [Function.update_self, eq_comm, List.find?_eq_none]
      simp
    · rw [Function.update_of_ne hn, h]
      congr 1
      funext r
      by_cases hr : r.name = n
      · simp [hr, hn]
      · simp [hr]

theorem foldl_remove (fs : List FuncRef) (h : Paired d.funcs d.order)
    (hd : (d.order.map (·.name)).Nodup) :
    ∃ funcs order, fs.foldl (fun d f => d.remove f.name) d =
    { d with funcs := funcs, order := order } ∧
      Paired funcs order ∧ order = d.order.filter fun r => decide (r.name ∉ fs.map (·.name)) := by
  induction fs generalizing d with
  | nil => exact ⟨d.funcs, d.order, rfl, h, by simp⟩
  | cons f fs ih =>
    obtain ⟨funcs, he, hp⟩ := remove_eq h hd f.name
    rw [List.foldl_cons, he]
    obtain ⟨funcs', order, he', hp', horder⟩ := ih (d := { d with funcs := funcs, order := _ }) hp
      ((List.filter_sublist.map _).nodup hd)
    refine ⟨funcs', order, he', hp', ?_⟩
    rw [horder, List.filter_filter]
    refine List.filter_congr fun r _ => ?_
    by_cases hr : r.name = f.name <;> simp [hr]

theorem foldl_unbind (names : List String) (vars : String → Option Slot) (x : String) :
    names.foldl (fun vars name => Function.update vars name none) vars x =
      if x ∈ names then none else vars x := by
  induction names generalizing vars with
  | nil => simp
  | cons name names ih =>
    rw [List.foldl_cons, ih]
    by_cases hx : x = name
    · subst hx
      simp
    · simp [hx]

end Tables

theorem Lowering.Touched.refs {s t : Lowering} (h : s.Touched t) :
    t.module.refs = s.module.refs ++ t.created := by
  have hstore : t.module.store.toList =
      s.module.store.toList ++ t.module.store.toList.drop s.module.store.size := by
    simpa using congrArg Array.toList (Module.eq_of_prefix h.old)
  have hlisted : ∀ f ∈ t.module.store.toList.drop s.module.store.size, f.listed = true := by
    intro f hf
    obtain ⟨j, hj⟩ := List.getElem?_of_mem hf
    exact h.listed (s.module.store.size + j) f (Nat.le_add_right _ _) (by
      simpa [Module.function?] using hj)
  rw [h.created, Module.refs, Module.functions]
  conv_lhs => rw [hstore, List.filter_append, List.filter_eq_self.mpr hlisted, List.map_append]
  rfl

theorem Tables.Refines.undo {d : Tables} {s t t' : Lowering} (h : d.Refines t) (ht : s.Touched t)
    (hd : (t.module.refs.map (·.name)).Nodup) (hn : (t.scopes.globals.map Prod.fst).Nodup)
    (hr : t'.Restores s) : (d.undo t.created s.scopes.mark).Refines t' := by
  have hmodule : t'.module = s.module := by
    rw [hr]
    rfl
  have hscopes : t'.scopes = s.scopes := by rw [hr]
  obtain ⟨more, hmore⟩ := ht.names
  obtain ⟨funcs, order, he, hp, horder⟩ := foldl_remove t.created h.funcs (h.order ▸ hd)
  rw [Tables.undo, he]
  refine ⟨?_, hp, ?_, fun x => ?_⟩
  · rw [ht.refs, List.map_append, List.nodup_append] at hd
    rw [hmodule, cut, horder, h.order, ht.refs, List.filter_append, List.filter_eq_self.mpr,
      List.filter_eq_nil_iff.mpr, List.append_nil]
    · intro r hr
      simpa using ⟨r, hr, rfl⟩
    · intro r hr
      simp only [decide_eq_true_eq]
      exact fun hmem => hd.2.2 _ (List.mem_map_of_mem hr) _ hmem rfl
  · rw [hscopes, cut, h.names, ← hmore, List.map_append]
    exact List.take_left' (by simp [Scopes.mark])
  · rw [hscopes]
    simp only [cut]
    rw [foldl_unbind, h.names, h.vars, ← hmore, List.map_append,
      List.drop_left' (by simp [Scopes.mark]),
      List.lookup_append]
    rw [← hmore, List.map_append, List.nodup_append] at hn
    by_cases hx : x ∈ more.map Prod.fst
    · rw [if_pos hx, eq_comm, List.lookup_eq_none_iff]
      intro y hy
      have hne : x ≠ y.1 := fun he => hn.2.2 _ (List.mem_map_of_mem hy) _ hx he.symm
      simpa using hne
    · have hnone : more.lookup x = none := by
        rw [List.lookup_eq_none_iff]
        intro y hy
        have hne : x ≠ y.1 := fun he => hx (he ▸ List.mem_map_of_mem hy)
        simpa using hne
      rw [if_neg hx, hnone, Option.or_none]

end RealScript
