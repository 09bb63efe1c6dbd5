import RealScript.Proofs.Machine.Traces

/-! # What a run stores

Globals change only where an activation is at a store to one of them. So the globals at a point of a
run are those from its start with all stores on the way carried out in order, and a global has the
value that was stored to it last.
-/

namespace RealScript

def Activation.storing? (act : Activation) : Option (Nat × Value) := match act.rest with
  | [] => none
  | i :: _ =>
    if i.op = .store then
      match i.slot.filter Slot.isGlobal, act.frame.operands? (i.args.take 1) with
      | some s, some args => some (s.index, args.headD .zero)
      | _, _ => none
    else none

def Point.stored? : Point → Option (Nat × Value)
  | .code act _ => act.storing?
  | _ => none

def Point.Stores (p : Point) (k : Nat) : Prop := ∃ v, p.stored? = some (k, v)

def put (globals : Array Value) : Option (Nat × Value) → Array Value
  | some (k, v) => globals.setIfInBounds k v
  | none => globals

def lastStored (stores : List (Nat × Value)) (k : Nat) :
    Value := (stores.reverse.lookup k).getD .zero

theorem lastStored_append (stores more : List (Nat × Value)) (k : Nat) :
    lastStored (stores ++ more) k = (more.reverse.lookup k).getD (lastStored stores k) := by
  rw [lastStored, List.reverse_append, List.lookup_append]
  cases more.reverse.lookup k <;> rfl

theorem stores_cases (ps : List Point) (k : Nat) :
    ((ps.filterMap Point.stored?).reverse.lookup k = none ∧ ∀ x ∈ ps, ¬ x.Stores k) ∨
    ∃ pre x post v, ps = pre ++ x :: post ∧ x.stored? = some (k, v) ∧ (∀ y ∈ post, ¬ y.Stores k) ∧
      (ps.filterMap Point.stored?).reverse.lookup k = some v := by
  induction ps using List.reverseRecOn with
  | nil => exact .inl ⟨rfl, by simp⟩
  | append_singleton ps x ih =>
    have hlast : ∀ {qs : List Point}, ¬ x.Stores k → (∀ y ∈ qs, ¬ y.Stores k) →
        ∀ y ∈ qs ++ [x], ¬ y.Stores k := by
      intro qs hx hqs y hy
      rcases List.mem_append.mp hy with hy | hy
      · exact hqs y hy
      · exact List.mem_singleton.mp hy ▸ hx
    by_cases hx : x.Stores k
    · obtain ⟨v, hv⟩ := hx
      exact .inr ⟨ps, x, [], v, rfl, hv, by simp, by simp [hv]⟩
    · have hlook : ((ps ++ [x]).filterMap Point.stored?).reverse.lookup k =
          (ps.filterMap Point.stored?).reverse.lookup k := by
        rw [List.filterMap_append, List.reverse_append]
        cases he : x.stored? with
        | none => simp [he]
        | some e =>
          obtain ⟨j, v⟩ := e
          have hne : (k == j) = false := by simpa using fun hk => hx ⟨v, by rw [he, hk]⟩
          simp [he, List.lookup_cons, hne]
      rw [hlook]
      rcases ih with ⟨hnone, hno⟩ | ⟨pre, y, post, v, rfl, hy, hpost, hsome⟩
      · exact .inl ⟨hnone, hlast hx hno⟩
      · exact .inr ⟨pre, y, post ++ [x], v, by simp, hy, hlast hx hpost, hsome⟩

theorem getD_foldl_put {globals : Array Value} {stores : List (Nat × Value)}
    (h : ∀ e ∈ stores, e.1 < globals.size) (k : Nat) :
    (stores.foldl (fun g e => put g (some e)) globals).getD k .zero =
      (stores.reverse.lookup k).getD (globals.getD k .zero) := by
  induction stores generalizing globals with
  | nil => rfl
  | cons e stores ih =>
    obtain ⟨j, v⟩ := e
    have hj : j < globals.size := h (j, v) List.mem_cons_self
    have hsize : (globals.setIfInBounds j v).size = globals.size := Array.size_setIfInBounds
    rw [List.foldl_cons, List.reverse_cons, List.lookup_append]
    change (stores.foldl _ (globals.setIfInBounds j v)).getD k .zero = _
    rw [ih fun e he => hsize ▸ h e (List.mem_cons_of_mem _ he)]
    cases hl : stores.reverse.lookup k with
    | some x => rfl
    | none =>
      simp only [Option.none_or, Option.getD_none, List.lookup_cons, List.lookup_nil]
      rw [Array.getD_eq_getD_getElem?, Array.getElem?_setIfInBounds]
      by_cases hk : j = k
      · subst hk
        simp [hj]
      · have : (k == j) = false := by simpa using fun h => hk h.symm
        simp [hk, this]

namespace Activation

variable {act : Activation} {i : Instr} {rest : List Instr}

theorem storing?_cons (hr : act.rest = i :: rest) : act.storing? = if i.op = .store then
      match i.slot.filter Slot.isGlobal, act.frame.operands? (i.args.take 1) with
      | some s, some args => some (s.index, args.headD .zero)
      | _, _ => none
    else none := by
  simp only [storing?, hr]

theorem exists_of_storing {e : Nat × Value} (h : act.storing? = some e) :
    ∃ i rest slot, act.rest = i :: rest ∧ i.op = .store ∧ i.slot = some slot ∧
    slot.isGlobal = true ∧ slot.index = e.1 := by
  unfold storing? at h
  split at h
  · cases h
  · rename_i i rest hr
    split at h
    · rename_i ho
      split at h
      · rename_i slot args hslot _
        obtain ⟨hslot, hg⟩ := Option.filter_eq_some_iff.mp hslot
        cases h
        exact ⟨i, rest, slot, hr, ho, hslot, hg, rfl⟩
      · cases h
    · cases h

theorem globals_of_effect (hr : act.rest = i :: rest) {v : Value}
    {slots globals globals' : Array Value}
    (h : i.effect act.frame globals = .value v slots globals') :
    globals' = put globals act.storing? := by
  rw [storing?_cons hr]
  unfold Instr.effect at h
  by_cases ho : i.op = .store
  · have hdemand : act.frame.demanded i.toOperation = i.args.take 1 := by simp only [Frame.demanded,
      ho]
    rw [hdemand] at h
    split at h
    · cases h
    · rename_i args hargs
      simp only [if_pos ho, hargs]
      unfold Instr.apply at h
      simp only [ho] at h
      cases hs : i.slot with
      | none =>
        rw [hs] at h
        cases h
        rfl
      | some s =>
        rw [hs] at h
        by_cases hg : s.isGlobal = true <;> simp only [hg, if_true] at h <;> cases h <;>
          simp [Option.filter, hg, put]
  · simp only [if_neg ho, put]
    split at h
    · cases h
    · unfold Instr.apply at h
      split at h
      case h_4 => exact absurd ‹_› ho
      case h_10 =>
        dsimp only at h
        split at h
        · split at h <;> cases h <;> rfl
        · cases h
      all_goals first | (cases h; rfl) | cases h

theorem storing?_eq_none (hr : act.rest = i :: rest) (globals : Array Value)
    (h : ∀ v slots globals', i.effect act.frame globals ≠ .value v slots globals') :
    act.storing? = none := by
  rw [storing?_cons hr]
  by_cases ho : i.op = .store
  · have hdemand : act.frame.demanded i.toOperation = i.args.take 1 := by simp only [Frame.demanded,
      ho]
    rw [if_pos ho]
    cases hargs : act.frame.operands? (i.args.take 1) with
    | none => cases i.slot.filter Slot.isGlobal <;> rfl
    | some args =>
      refine absurd ?_ (not_exists.mpr fun v => not_exists.mpr fun slots =>
        not_exists.mpr (h v slots))
      unfold Instr.effect
      rw [hdemand, hargs]
      simp only [Instr.apply, ho]
      cases i.slot with
      | none => exact ⟨_, _, _, rfl⟩
      | some s =>
        dsimp only
        split <;> exact ⟨_, _, _, rfl⟩
  · rw [if_neg ho]

end Activation

namespace Machine

variable {m : Machine} {p p' q : Point} {ps : List Point}

theorem globals_turn (m : Machine) (act : Activation) (w : World) : match m.turn act w with
    | .go _ w' | .fail _ w' => w'.globals = put w.globals act.storing?
    | .call _ _ | .done _ => act.storing? = none := by
  unfold turn
  cases hr : act.rest with
  | nil =>
    have hnone : act.storing? = none := by simp only [Activation.storing?, hr]
    rw [hnone]
    simp only [transition]
    cases act.next with
    | none => rfl
    | some target =>
      generalize (if (act.steps + 1) % checkEvery = 0 then
        m.interrupt? { w with clock := w.clock + 1 } else none) = look
      cases look with
      | some i => rfl
      | none =>
        dsimp only
        cases m.block? act.function target <;> rfl
  | cons i rest =>
    dsimp only
    cases he : i.effect act.frame w.globals with
    | value v slots globals => exact Activation.globals_of_effect hr he
    | call callee args =>
      have hnone := Activation.storing?_eq_none hr w.globals (by rw [he]; exact nofun)
      simp only [enact]
      cases callee.bind (m.module.function? ·.id) with
      | none => rw [hnone]; rfl
      | some f => exact hnone
    | ret v => exact Activation.storing?_eq_none hr w.globals (by rw [he]; exact nofun)
    | jump | fail | missing =>
      rw [Activation.storing?_eq_none hr w.globals (by rw [he]; exact nofun)]
      rfl

theorem globals_go (h : m.advance p = .go p') :
    p'.world.globals = put p.world.globals p.stored? := by
  cases p with
  | call f args d w =>
    simp only [advance] at h
    repeat' split at h
    all_goals
      cases h
      rfl
  | code act w =>
    have ht := m.globals_turn act w
    simp only [advance] at h
    split at h <;> rename_i he <;> rw [he] at ht <;> cases h
    · exact ht
    · change w.globals = put w.globals act.storing?
      rw [ht]
      rfl
    · exact ht
  | native f d a w => exact (acts_of_advanceNative h).globals
  | back | fail => cases h

theorem stored?_of_call {f : Function} {args : List Value} {d : Nat} {w : World}
    {next : Except RuntimeError Value → World → Point} (h : m.advance p = .call f args d w next) :
    p.stored? = none := by
  cases p with
  | code act u =>
    have ht := m.globals_turn act u
    simp only [advance] at h
    split at h <;> rename_i he <;> rw [he] at ht <;> cases h
    exact ht
  | _ => rfl

theorem Passes.globals (h : m.Passes p ps q) : q.world.globals = (ps.filterMap Point.stored?).foldl
    (fun g e => put g (some e)) p.world.globals := by
  induction h with
  | refl => rfl
  | @go p p' q ps ha _ ih =>
    rw [ih, globals_go ha]
    cases hp : p.stored? with
    | none => rw [List.filterMap_cons_none hp]; rfl
    | some e => rw [List.filterMap_cons_some hp]; rfl
  | @back p q r f args d w next x ps qs ha _ hx _ ihc ih =>
    obtain ⟨rfl, hnext⟩ := world_of_call ha
    have hback : r.stored? = none := by
      cases r with
      | back | fail => rfl
      | _ => cases hx
    rw [List.cons_append, List.filterMap_cons_none (stored?_of_call ha), List.filterMap_append,
      List.filterMap_cons_none hback, List.foldl_append, ih, hnext]
    exact congrArg (fun g => List.foldl _ g _) ihc

theorem Visits.globals (h : m.Visits p ps q) : q.world.globals = (ps.filterMap Point.stored?).foldl
    (fun g e => put g (some e)) p.world.globals := by
  induction h with
  | level h => exact h.globals
  | @enter p q r f args d w next ps qs h ha _ ih =>
    obtain ⟨rfl, -⟩ := world_of_call ha
    rw [List.filterMap_append, List.filterMap_cons_none (stored?_of_call ha), List.foldl_append,
      ← h.globals]
    exact ih

end Machine

end RealScript
