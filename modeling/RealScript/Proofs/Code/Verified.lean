import RealScript.Proofs.Code.Built

/-! # Code that was verified

What verification checks makes code sound if it was built and defines registers before their use.
-/

namespace RealScript.Function

open Stateful

variable {f : Function}

theorem demand_eq_ok {c : Bool} {cause : CodeCause} (h : demand c cause = .ok ()) : c = true := by
  cases c with
  | true => rfl
  | false => cases h

theorem ne_hole_of_verifyOperand {op : Opcode} {want : Ty} {x : Operand}
    (h : f.verifyOperand op want x = .ok ()) : x ≠ .hole := by
  rintro rfl
  cases h

theorem defined_of_verifyOperand {op : Opcode} {want : Ty} {r : ResultRef}
    (h : f.verifyOperand op want (.result r) = .ok ()) : ∃ i ∈ code f.blocks, i.ref = r := by
  obtain ⟨⟨⟩, h, -⟩ := except_bind_eq_ok h
  have hd := demand_eq_ok h
  simp only [defines, List.any_eq_true, beq_iff_eq] at hd
  obtain ⟨b, hb, i, hi, rfl⟩ := hd
  exact ⟨i, mem_code.mpr ⟨b, hb, hi⟩, rfl⟩

theorem verifyOperands_eq_ok {o : Operation} {want : Ty} {n : Nat}
    (h : f.verifyOperands o want n = .ok ()) :
    ∀ x ∈ o.args, ∃ op want, f.verifyOperand op want x = .ok () := by
  obtain ⟨⟨⟩, -, h⟩ := except_bind_eq_ok h
  exact fun x hx => ⟨o.op, want, forM_eq_ok h x hx⟩

theorem verifyTarget_eq_ok {t : Option BlockRef} (h : f.verifyTarget t = .ok ()) :
    ∃ r ∈ f.blocks.map (·.ref), t = some r := by
  have := demand_eq_ok h
  cases t with
  | none => simp at this
  | some r => exact ⟨r, by simpa using this, rfl⟩

theorem param_of_verifyOperand {op : Opcode} {want : Ty} {k index : Nat} {name : String} {ty : Ty}
    (h : f.verifyOperand op want (.param k index name ty) = .ok ()) : k = f.id := by
  obtain ⟨⟨⟩, h, -⟩ := except_bind_eq_ok h
  exact of_decide_eq_true (demand_eq_ok h)

theorem home_of_verifyOperation {o : Operation} (h : f.verifyOperation o = .ok ()) {s : Slot}
    (hs : o.slot = some s) (ho : o.op = .load ∨ o.op = .store) :
    s.home = .module ∨ s.home = .activation f.id := by
  unfold verifyOperation at h
  rcases ho with ho | ho <;> simp only [ho, hs] at h <;>
    obtain ⟨⟨⟩, h, -⟩ := except_bind_eq_ok h <;>
    simpa [Slot.isGlobal] using demand_eq_ok h

theorem operands_of_verifyOperation {o : Operation} (hp : o.Plain)
    (h : f.verifyOperation o = .ok ()) :
    ∀ x ∈ o.args, ∃ op want, f.verifyOperand op want x = .ok () := by
  unfold verifyOperation at h
  cases ho : o.op with
  | constColl | load | br => simp [hp.args (by simp [ho])]
  | store =>
    simp only [ho] at h
    cases hs : o.slot with
    | none => simp [hs] at h
    | some s =>
      simp only [hs] at h
      obtain ⟨⟨⟩, -, h⟩ := except_bind_eq_ok h
      exact verifyOperands_eq_ok (by simpa using h)
  | call =>
    simp only [ho] at h
    cases hc : o.callee with
    | none => simp [hc] at h
    | some c =>
      simp only [hc] at h
      obtain ⟨⟨⟩, hlen, h⟩ := except_bind_eq_ok h
      have hlen : o.args.length = c.params.length := by simpa using demand_eq_ok hlen
      intro x hx
      obtain ⟨k, hk, rfl⟩ := List.getElem_of_mem hx
      have hmem : (o.args[k], c.params[k]) ∈ o.args.zip c.params := by
        rw [← List.getElem_zip (h := by simp [hk, ← hlen])]
        exact List.getElem_mem _
      exact ⟨_, _, forM_eq_ok h _ hmem⟩
  | callIndirect =>
    simp only [ho] at h
    cases ha : o.args with
    | nil => simp
    | cons c args =>
      simp only [ha] at h
      obtain ⟨⟨⟩, hc, h⟩ := except_bind_eq_ok h
      intro x hx
      rcases List.mem_cons.mp hx with rfl | hx
      · exact ⟨_, _, hc⟩
      · exact ⟨_, _, forM_eq_ok h x hx⟩
  | condBr =>
    simp only [ho] at h
    split at h
    · obtain ⟨⟨⟩, ha, -⟩ := except_bind_eq_ok h
      exact verifyOperands_eq_ok ha
    · cases h
  | ret =>
    simp only [ho] at h
    split at h
    · have := demand_eq_ok h
      simp only [List.isEmpty_iff] at this
      simp [this]
    · exact verifyOperands_eq_ok h
  | unknown n => simp only [ho] at h; cases h
  | _ =>
    simp only [ho] at h
    exact verifyOperands_eq_ok h

theorem fits_of_verifyOperation {i : Instr} (hi : i.Fair f.registers f.emitted)
    (h : f.verifyOperation i.toOperation = .ok ()) :
    i.Fits f.registers (f.blocks.map (·.ref)) := by
  have hbr : i.op = .br → ∃ t, i.targets = [t] ∧ ∃ r ∈ f.blocks.map (·.ref), t = some r := by
    intro ho
    simp only [verifyOperation, ho] at h
    split at h
    · rename_i t ht
      exact ⟨t, ht, verifyTarget_eq_ok h⟩
    · cases h
  have hcond : i.op = .condBr → ∃ yes no, i.targets = [yes, no] ∧
      (∃ r ∈ f.blocks.map (·.ref), yes = some r) ∧ ∃ r ∈ f.blocks.map (·.ref), no = some r := by
    intro ho
    simp only [verifyOperation, ho] at h
    split at h
    · rename_i yes no ht
      obtain ⟨⟨⟩, -, h⟩ := except_bind_eq_ok h
      obtain ⟨⟨⟩, hyes, hno⟩ := except_bind_eq_ok h
      exact ⟨yes, no, ht, verifyTarget_eq_ok hyes, verifyTarget_eq_ok hno⟩
    · cases h
  exact
    { targets := fun t ht => by
        by_cases ho : i.op = .br
        · obtain ⟨u, hu, hr⟩ := hbr ho
          obtain rfl : t = u := by simpa [hu] using ht
          exact hr
        · by_cases ho' : i.op = .condBr
          · obtain ⟨yes, no, hu, hy, hn⟩ := hcond ho'
            rw [hu] at ht
            rcases List.mem_cons.mp ht with rfl | ht
            · exact hy
            · obtain rfl : t = no := by simpa using ht
              exact hn
          · simp [hi.plain.targets ho ho'] at ht
      inner := fun ht => by
        refine hi.plain.targets ?_ ?_ <;> intro ho <;>
          simp [Instr.isTerminator, ho, Opcode.isTerminator] at ht
      br := fun ho => by
        obtain ⟨t, ht, -⟩ := hbr ho
        exact ⟨t, ht⟩
      condBr := fun ho => by
        obtain ⟨yes, no, ht, -⟩ := hcond ho
        exact ⟨yes, no, ht⟩
      operands := fun x hx => by
        obtain ⟨_, _, hx⟩ := operands_of_verifyOperation hi.plain h x hx
        exact ne_hole_of_verifyOperand hx
      known := fun k ho => by simp only [verifyOperation, ho] at h; cases h
      register := hi.register
      numeric := hi.numeric
      terminator := hi.terminator }

theorem verifyInstrs_eq_ok {r : BlockRef} {is : List Instr} (h : f.verifyInstrs r is = .ok ())
    (hne : is ≠ []) :
    (∃ body t, is = body ++ [t] ∧ t.isTerminator = true ∧ ∀ i ∈ body, i.isTerminator = false) ∧
      ∀ i ∈ is, f.verifyOperation i.toOperation = .ok () := by
  induction is with
  | nil => exact (hne rfl).elim
  | cons i is ih =>
    rw [verifyInstrs] at h
    cases is with
    | nil =>
      simp only [List.isEmpty_nil, if_true] at h
      obtain ⟨⟨⟩, ht, h⟩ := except_bind_eq_ok h
      obtain ⟨⟨⟩, -, h⟩ := except_bind_eq_ok h
      obtain ⟨⟨⟩, ho, -⟩ := except_bind_eq_ok h
      exact ⟨⟨[], i, rfl, demand_eq_ok ht, by simp⟩, by simpa using ho⟩
    | cons j is =>
      simp only [List.isEmpty_cons, Bool.false_eq_true, if_false] at h
      obtain ⟨⟨⟩, ht, h⟩ := except_bind_eq_ok h
      obtain ⟨⟨⟩, -, h⟩ := except_bind_eq_ok h
      obtain ⟨⟨⟩, ho, h⟩ := except_bind_eq_ok h
      obtain ⟨⟨body, t, he, hterm, hbody⟩, hops⟩ := ih h (by simp)
      refine ⟨⟨i :: body, t, by simp [he], hterm, ?_⟩, ?_⟩
      · intro k hk
        rcases List.mem_cons.mp hk with rfl | hk
        · simpa using demand_eq_ok ht
        · exact hbody k hk
      · intro k hk
        rcases List.mem_cons.mp hk with rfl | hk
        · exact ho
        · exact hops k hk

theorem verifyBlock_of_verify (hn : f.native = false) (hv : f.verify = .ok ()) :
    f.blocks ≠ [] ∧ ∀ b ∈ f.blocks, f.verifyBlock b = .ok () := by
  rw [verify, hn] at hv
  cases hb : f.hasBody with
  | false => simp [hb] at hv
  | true =>
    simp only [hb, Bool.false_eq_true, if_false, Bool.not_true] at hv
    refine ⟨by simpa [hasBody] using hb, fun b hm => ?_⟩
    have := forM_eq_ok hv b hm
    cases h : f.verifyBlock b with
    | ok => rfl
    | error e => rw [h] at this; cases this

theorem block_of_verify (hn : f.native = false) (hv : f.verify = .ok ()) {b : Block}
    (hb : b ∈ f.blocks) : b.ref.fn = f.id ∧ b.Closed ∧
      ∀ i ∈ b.instrs, f.verifyOperation i.toOperation = .ok () := by
  obtain ⟨⟨⟩, hfn, h⟩ := except_bind_eq_ok ((verifyBlock_of_verify hn hv).2 b hb)
  obtain ⟨⟨⟩, hempty, h⟩ := except_bind_eq_ok h
  exact ⟨by simpa using demand_eq_ok hfn, verifyInstrs_eq_ok h (by simpa using demand_eq_ok hempty)⟩

theorem sound_of_verify (ht : f.Tidy) (hn : f.native = false) (hv : f.verify = .ok ())
    (hd : DefinesBeforeUse f.blocks) : Sound f.registers f.blocks := by
  exact
    { nonempty := (verifyBlock_of_verify hn hv).1
      labels := ht.nodup_ref
      closed := fun b hb => (block_of_verify hn hv hb).2.1
      fits := fun i hi => by
        obtain ⟨b, hb, hib⟩ := mem_code.mp hi
        exact fits_of_verifyOperation (ht.instr i hi) ((block_of_verify hn hv hb).2.2 i hib)
      results := by
        refine List.Nodup.of_map ResultRef.index ?_
        rw [List.map_map]
        exact ht.results
      registers := ht.registers
      uses := hd }

end RealScript.Function
