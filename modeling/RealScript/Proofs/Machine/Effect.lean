import RealScript.Proofs.Machine.Simulation

/-! # Effects of instructions

An effect depends on the values of the operands only, not on how the operands are written, and an
instruction that is not the end of a block never leaves it.
-/

namespace RealScript

variable {a : Activation} {globals : Array Value} {fr' : Frame} {i : Instr} {g : Operand → Operand}

namespace Frame

def result (fr : Frame) (r : ResultRef) : Value := (r.register.bind (fr.registers[·]?)).getD .zero

theorem operand?_result (fr : Frame) (r : ResultRef) :
    fr.operand? (.result r) = some (fr.result r) := rfl

theorem result_of_register_eq_none {r : ResultRef} (h : r.register = none) (fr : Frame) :
    fr.result r = .zero := by
  simp [result, h]

section

variable (fr : Frame) (r : ResultRef) (v : Value)

include fr r v

@[simp] theorem record_args : (fr.record r v).args = fr.args := by
  unfold record; split <;> rfl

@[simp] theorem record_slots : (fr.record r v).slots = fr.slots := by
  unfold record; split <;> rfl

@[simp] theorem size_record : (fr.record r v).registers.size = fr.registers.size := by
  unfold record; split <;> simp

end

theorem record_of_register_eq_none {r : ResultRef} (h : r.register = none) (fr : Frame)
    (v : Value) : fr.record r v = fr := by
  simp [record, h]

theorem result_record_self {fr : Frame} {r : ResultRef} {k : Nat} (h : r.register = some k)
    (hk : k < fr.registers.size) (v : Value) : (fr.record r v).result r = v := by
  simp [result, record, h, hk]

theorem result_record_of_ne {r s : ResultRef}
    (h : r.register = none ∨ r.register ≠ s.register) (fr : Frame) (v : Value) :
    (fr.record s v).result r = fr.result r := by
  unfold record result
  cases hs : s.register with
  | none => rfl
  | some k =>
    cases hr : r.register with
    | none => rfl
    | some j =>
      have hne : k ≠ j := by rintro rfl; simp [hr, hs] at h
      simp [hne]

theorem result_record_congr {fr : Frame} {r s : ResultRef}
    (hn : fr.registers.size = fr'.registers.size) (h : fr.result r = fr'.result r) (v : Value) :
    (fr.record s v).result r = (fr'.record s v).result r := by
  by_cases hr : r.register = none ∨ r.register ≠ s.register
  · rw [result_record_of_ne hr, result_record_of_ne hr, h]
  · obtain ⟨hr, he⟩ := not_or.mp hr
    obtain ⟨k, hk⟩ := Option.ne_none_iff_exists'.mp hr
    have hs : s.register = some k := by rw [← not_not.mp he, hk]
    by_cases hlt : k < fr.registers.size
    · simp [result, record, hs, hk, hlt, hn ▸ hlt]
    · simp [result, record, hs, hk, hlt, hn ▸ hlt]

theorem operands?_map {fr : Frame} {xs : List Operand}
    (h : ∀ x ∈ xs, fr'.operand? (g x) = fr.operand? x) :
    fr'.operands? (xs.map g) = fr.operands? xs := by
  induction xs with
  | nil => rfl
  | cons x xs ih =>
    simp only [List.map_cons, operands?, h x (by simp), ih fun y hy => h y (by simp [hy])]

theorem operands?_isSome {fr : Frame} {xs : List Operand} (h : ∀ x ∈ xs, x ≠ .hole) :
    ∃ vs, fr.operands? xs = some vs := by
  induction xs with
  | nil => exact ⟨[], rfl⟩
  | cons x xs ih =>
    obtain ⟨vs, hvs⟩ := ih fun y hy => h y (by simp [hy])
    have hx : ∃ v, fr.operand? x = some v := by
      cases x with
      | hole => exact (h _ (by simp) rfl).elim
      | _ => exact ⟨_, rfl⟩
    obtain ⟨v, hv⟩ := hx
    exact ⟨v :: vs, by simp only [operands?, hv, hvs]⟩

theorem demanded_sublist (fr : Frame) (o : Operation) : (fr.demanded o).Sublist o.args := by
  unfold demanded
  cases o.op <;> first
    | exact List.nil_sublist _
    | exact List.take_sublist _ _
    | exact List.Sublist.refl _
    | (dsimp only; split <;> first | exact List.Sublist.refl _ | exact List.take_sublist _ _)

theorem demanded_map {fr : Frame} {o : Operation}
    (h : ∀ x ∈ o.args, fr'.operand? (g x) = fr.operand? x) :
    fr'.demanded { o with args := o.args.map g } = (fr.demanded o).map g := by
  have hfirst : ((o.args.map g).head?.bind fr'.operand?) = o.args.head?.bind fr.operand? := by
    cases ha : o.args with
    | nil => rfl
    | cons x xs => simp [h x (by simp [ha])]
  unfold demanded
  cases o.op <;> simp only [hfirst, List.map_take, List.map_nil]
  split <;> simp

end Frame

namespace Instr

theorem effect_mapArgs {fr : Frame}
    (hs : fr'.slots = fr.slots) (h : ∀ x ∈ i.args, fr'.operand? (g x) = fr.operand? x)
    (globals : Array Value) : (i.mapArgs g).effect fr' globals = i.effect fr globals := by
  have hd : fr'.demanded (i.mapArgs g).toOperation = (fr.demanded i.toOperation).map g :=
    Frame.demanded_map h
  have ho : fr'.operands? ((fr.demanded i.toOperation).map g) =
      fr.operands? (fr.demanded i.toOperation) :=
    Frame.operands?_map fun x hx => h x ((fr.demanded_sublist i.toOperation).subset hx)
  unfold effect
  rw [hd, ho, hs]
  rfl

theorem effect_congr {fr : Frame} (hs : fr'.slots = fr.slots)
    (h : ∀ x ∈ i.args, fr'.operand? x = fr.operand? x) (globals : Array Value) :
    i.effect fr' globals = i.effect fr globals := by
  have hi : i.mapArgs id = i := by simp [mapArgs]
  have he := effect_mapArgs (g := id) hs h globals
  rwa [hi] at he

theorem effect_of_isPure (hp : i.op.isPure = true) (hk : ∀ n, i.op ≠ .unknown n)
    (hx : ∀ x ∈ i.args, x ≠ .hole) (fr : Frame) (globals : Array Value) :
    ∃ v, i.effect fr globals = .value v fr.slots globals := by
  have hsome : ∃ vs, fr.operands? (fr.demanded i.toOperation) = some vs :=
    Frame.operands?_isSome fun x h => hx x ((fr.demanded_sublist _).subset h)
  obtain ⟨vs, hvs⟩ := hsome
  simp only [effect, hvs, apply]
  cases ho : i.op <;> simp_all [Opcode.isPure, Opcode.isNumeric] <;> split <;> exact ⟨_, rfl⟩

theorem apply_of_not_isTerminator (h : i.isTerminator = false) (args : List Value)
    (slots globals : Array Value) :
    (∃ v s g, i.apply args slots globals = .value v s g) ∨
    (∃ f xs, i.apply args slots globals = .call f xs) ∨
    ∃ cause, i.apply args slots globals = .fail cause := by
  unfold apply
  cases ho : i.op with
  | br | condBr | ret => simp [isTerminator, ho, Opcode.isTerminator] at h
  | call | callIndirect => exact .inr (.inl ⟨_, _, rfl⟩)
  | unknown n => exact .inr (.inr ⟨_, rfl⟩)
  | constColl | makeColl | load => exact .inl ⟨_, _, _, rfl⟩
  | store => dsimp only; split <;> (try split) <;> exact .inl ⟨_, _, _, rfl⟩
  | add | sub | mul | div | cmp | and | or | xor | not | toBool | toReal =>
    exact .inl ⟨_, _, _, rfl⟩

theorem not_isTerminator_of_value {fr : Frame} {v : Value}
    {s g : Array Value} (h : i.effect fr globals = .value v s g) : i.isTerminator = false := by
  unfold effect at h
  split at h
  · cases h
  · unfold apply at h
    cases ho : i.op <;> simp [ho] at h <;> simp [isTerminator, ho, Opcode.isTerminator]

theorem not_isTerminator_of_call {fr : Frame}
    {f : Option FuncRef} {xs : List Value} (h : i.effect fr globals = .call f xs) :
    i.isTerminator = false := by
  unfold effect at h
  split at h
  · cases h
  · unfold apply at h
    cases ho : i.op <;> simp [ho] at h <;> simp [isTerminator, ho, Opcode.isTerminator]

theorem target_of_jump {fr : Frame} {t : Option BlockRef} (h : i.effect fr globals = .jump t) :
    i.op = .br ∧ t = (i.targets[0]?).join ∨ i.op = .condBr ∧ ∃ k < 2, t = (i.targets[k]?).join := by
  unfold effect at h
  split at h
  · cases h
  · rename_i args _
    cases hi : i.isTerminator with
    | false =>
      rcases apply_of_not_isTerminator hi args fr.slots globals with ⟨_, _, _, he⟩ | ⟨_, _, he⟩ |
        ⟨_, he⟩ <;> simp [he] at h
    | true =>
      unfold apply at h
      cases ho : i.op <;> simp [isTerminator, ho, Opcode.isTerminator] at hi <;>
        simp only [ho] at h
      · exact .inl ⟨rfl, (Effect.jump.inj h).symm⟩
      · exact .inr ⟨rfl, _, by split <;> omega, (Effect.jump.inj h).symm⟩
      · cases h

end Instr

namespace Machine

theorem turn_cons (m : Machine) {is : List Instr} (h : a.rest = i :: is) (w : World) :
    m.turn a w = m.enact a w (i.effect a.frame w.globals) := by
  rw [turn, h]

theorem turn_nil {m : Machine} (hi : m.context.Idle) {r : BlockRef} {b : Block}
    (hr : a.rest = []) (hn : a.next = some r) (hb : a.function.block? r = some b) (w : World) :
    m.turn a w = .go { a with block := r, rest := b.instrs, next := none, steps := a.steps + 1 }
      { w with clock := w.clock + 1 } := by
  rw [turn, hr]
  simp only [transition, hn, interrupt?, hi.interrupt, ite_self, block?, hb, Option.some_or]

theorem Paired.alike_enact {m m' : Machine} (P : Paired m m')
    {rel : Activation → Activation → Prop} {a' : Activation} {w w' : World}
    (hw : w.untimed = w'.untimed) (hf : a.function.name = a'.function.name)
    (hd : a.depth = a'.depth) (e : Effect)
    (hvalue : ∀ v s g, e = .value v s g →
      rel ({ a with frame := { a.frame with slots := s } }.receive v)
        ({ a' with frame := { a'.frame with slots := s } }.receive v))
    (hcall : ∀ f xs, e = .call f xs → ∀ x, rel (a.receive x) (a'.receive x))
    (hjump : ∀ t, e = .jump t →
      rel ({ a with next := t }.receive .zero) ({ a' with next := t }.receive .zero)) :
    Alike m m' rel a a' (m.enact a w e) (m'.enact a' w' e) := by
  obtain ⟨c, rfl⟩ := World.untimed_eq_iff.mp hw
  cases e with
  | value v s g => exact .go (hvalue v s g rfl) rfl
  | call f xs =>
    cases f with
    | none => simp only [enact, Option.bind_none, hf]; exact .fail _ rfl
    | some f =>
      rcases P.function_cases f.id with ⟨hr, hr'⟩ | ⟨c, c', hr, hr', hc⟩
      · simp only [enact, Option.bind_some, hr, hr', hf]; exact .fail _ rfl
      · simp only [enact, Option.bind_some, hr, hr']
        exact .call xs hc hd (hcall (some f) xs rfl)
  | jump t => exact .go (hjump t rfl) rfl
  | ret v => exact .done v
  | fail cause => simp only [enact, hf]; exact .fail _ rfl
  | missing => exact .fail _ rfl

end Machine

end RealScript
