/-
# What operand bytes aim at

Operand bytes name a register, a word in memory or a number. An address may be taken from a register
that is updated before the access or after it, and it is the updated register that counts. So a jump's
destination and the word that an instruction reads or writes are functions of the operand bytes and the
state behind them, and the only thing that changes on the way is the register that is updated.

Key definitions: `Cpu.cell?`, `Cpu.aim?`, `Cpu.settled`.
Key theorems: `Cpu.ok_of_operand`, `Cpu.ok_of_updated`, `Cpu.settled_cases`,
`Cpu.run_target_eq_ok_iff`, `Cpu.run_jumpTaken_eq_ok_iff`, `Cpu.run_call_eq_ok_iff`.
-/
import Sx16.Proofs.Processor.Skipped

namespace Sx16
namespace Cpu

variable {c c' c1 c2 : Cpu} {i : UInt8} {r : Register} {v : UInt16} {u : Unit} {delta : Int16}
  {o : Decoded}

/-- The address of the word that operand bytes name in the state behind them, if they name one. -/
def cell? (c : Cpu) (o : Decoded) : Option UInt16 :=
  match o.mode with
  | .immediate | .regDirect | .regDirectAddition => none
  | .regIndirect | .regIndirectOffset =>
    (Register.ofIndex? o.descriptor.src).map fun r => c.reg r + o.update.before.toUInt16 + o.payload
  | .memory => some o.payload

/-! ### Registers by number -/

theorem index_of_ofIndex? (h : Register.ofIndex? i = some r) : r.index = i := by
  simpa using List.find?_some h

theorem ok_of_named (h : (named i).run c = .ok r c') : Register.ofIndex? i = some r ∧ c' = c := by
  unfold named at h
  split at h
  · rename_i hr
    cases h
    exact ⟨hr, rfl⟩
  · cases h

theorem ok_of_operand (h : (operand i).run c = .ok v c') :
    ∃ r, Register.ofIndex? i = some r ∧ v = c.reg r ∧ c' = c := by
  obtain ⟨r, c1, hnamed, h⟩ := ok_of_run_bind h
  obtain ⟨_, _, hget, hpure⟩ := ok_of_run_bind h
  cases hget
  cases hpure
  obtain ⟨hr, rfl⟩ := ok_of_named hnamed
  exact ⟨r, hr, rfl, rfl⟩

/-- A register that has been updated and is read then: it exists, and the updated contents count. -/
theorem ok_of_updated (hstep : (stepOperand i delta).run c = .ok u c1)
    (hread : (operand i).run c1 = .ok v c2) : ∃ r, Register.ofIndex? i = some r ∧
      v = c.reg r + delta.toUInt16 ∧ c2 = c.moved r delta := by
  obtain ⟨r, hr, rfl, rfl⟩ := ok_of_operand hread
  rw [← index_of_ofIndex? hr, run_stepOperand] at hstep
  cases hstep
  exact ⟨r, hr, (reg_setReg c r r _).trans (if_pos rfl), rfl⟩

/-! ### Destinations -/

/-- Where a jump with operand bytes goes from the state behind them, if the register exists that they
name. -/
def aim? (c : Cpu) (o : Decoded) : Option UInt16 :=
  match o.mode with
  | .immediate => some o.payload
  | .regDirect => (Register.ofIndex? o.descriptor.src).map c.reg
  | .regIndirect | .regIndirectOffset | .memory => (c.cell? o).map c.memory.word
  | .regDirectAddition => some (c.pc + o.payload)

/-- The state with the updates of a register that finding the destination makes. -/
def settled (c : Cpu) (o : Decoded) : Cpu :=
  match o.mode with
  | .regIndirect | .regIndirectOffset =>
    match Register.ofIndex? o.descriptor.src with
    | some r => (c.moved r o.update.before).moved r o.update.after
    | none => c
  | .immediate | .regDirect | .memory | .regDirectAddition => c

/-- Finding a destination leaves the state as it is, or it steps the one register that the operand bytes
ask to be updated. -/
theorem settled_cases (o : Decoded) : (∀ c : Cpu, c.settled o = c) ∨
    ∃ r : Register, r.index ∈ o.updated ∧
      ∀ c : Cpu, c.settled o = (c.moved r o.update.before).moved r o.update.after := by
  unfold settled Decoded.updated
  cases o.mode with
  | regIndirect | regIndirectOffset =>
    cases hr : Register.ofIndex? o.descriptor.src with
    | none => exact .inl fun _ => rfl
    | some r =>
      by_cases hu : o.update = .none
      · rw [hu]
        exact .inl fun c => (moved_zero _ r).trans (moved_zero c r)
      · simp only [if_neg hu]
        exact .inr ⟨r, List.mem_singleton.mpr (index_of_ofIndex? hr), fun _ => rfl⟩
  | _ => exact .inl fun _ => rfl

@[simp] theorem memory_settled (c : Cpu) (o : Decoded) : (c.settled o).memory = c.memory := by
  obtain h | ⟨r, -, h⟩ := settled_cases o
  · rw [h]
  · rw [h, moved, memory_setReg, moved, memory_setReg]

theorem reg_settled (h : r.index ∉ o.updated) (c : Cpu) : (c.settled o).reg r = c.reg r := by
  obtain hsame | ⟨r', hr', hsettled⟩ := settled_cases o
  · rw [hsame]
  · have hne : r' ≠ r := fun heq => h (heq ▸ hr')
    rw [hsettled, moved, reg_setReg, if_neg hne, moved, reg_setReg, if_neg hne]

theorem isSome_aim?_congr (c c' : Cpu) (o : Decoded) : (c.aim? o).isSome = (c'.aim? o).isSome := by
  unfold aim? cell?
  cases o.mode <;> simp only [Option.isSome_map, Option.isSome_some]

theorem ok_of_indirect (h : (indirect o).run c = .ok v c') :
    ∃ r, Register.ofIndex? o.descriptor.src = some r ∧
      v = c.memory.word (c.reg r + o.update.before.toUInt16 + o.payload) ∧
      c' = (c.moved r o.update.before).moved r o.update.after := by
  obtain ⟨_, _, -, hrest⟩ := ok_of_run_bind h
  obtain ⟨_, _, hread, -⟩ := ok_of_run_bind hrest
  obtain ⟨r, hr, -, -⟩ := ok_of_operand hread
  rw [run_indirect (index_of_ofIndex? hr).symm] at h
  cases h
  exact ⟨r, hr, rfl, rfl⟩

theorem ok_of_target (h : (target o).run c = .ok v c') : c.aim? o = some v ∧ c' = c.settled o := by
  unfold target at h
  unfold aim? settled
  cases hm : o.mode with
  | immediate =>
    simp only [hm] at h
    cases h
    exact ⟨rfl, rfl⟩
  | regDirect =>
    simp only [hm] at h
    obtain ⟨r, hr, rfl, rfl⟩ := ok_of_operand h
    simp only [hr, Option.map_some, and_self]
  | regIndirect | regIndirectOffset =>
    simp only [hm] at h
    obtain ⟨r, hr, rfl, rfl⟩ := ok_of_indirect h
    simp only [cell?, hm, hr, Option.map_some, and_self]
  | memory | regDirectAddition =>
    simp only [hm] at h
    obtain ⟨_, _, hget, hpure⟩ := ok_of_run_bind h
    cases hget
    cases hpure
    simp only [cell?, hm, Option.map_some, and_self]

/-- A destination is found where there is one. -/
theorem run_target_of_aim? (h : c.aim? o = some v) : (target o).run c = .ok v (c.settled o) := by
  unfold aim? at h
  unfold target settled
  cases hm : o.mode with
  | immediate | regDirectAddition =>
    simp only [hm] at h
    cases h
    rfl
  | memory =>
    simp only [cell?, hm] at h
    cases h
    rfl
  | regDirect =>
    simp only [hm] at h
    obtain ⟨r, hr, rfl⟩ := Option.map_eq_some_iff.mp h
    rw [← index_of_ofIndex? hr]
    exact run_operand r c
  | regIndirect | regIndirectOffset =>
    simp only [cell?, hm] at h
    obtain ⟨w, hw, rfl⟩ := Option.map_eq_some_iff.mp h
    obtain ⟨r, hr, rfl⟩ := Option.map_eq_some_iff.mp hw
    simp only [hr]
    exact run_indirect (index_of_ofIndex? hr).symm c

/-- **A jump's destination** and the state that it is found in follow from the operand bytes and the state
behind them. -/
theorem run_target_eq_ok_iff : (target o).run c = .ok v c' ↔ c.aim? o = some v ∧ c' = c.settled o := by
  refine ⟨ok_of_target, ?_⟩
  rintro ⟨h, rfl⟩
  exact run_target_of_aim? h

/-! ### Jumps and calls -/

theorem run_jumpTaken_eq_ok_iff : jumpTaken.run c = .ok u c' ↔
    ∃ o next v, decode.run c = .ok o next ∧ next.aim? o = some v ∧
      c' = (next.settled o).setReg .pc v := by
  unfold jumpTaken
  constructor
  · intro h
    obtain ⟨o, next, hdecode, h⟩ := ok_of_run_bind h
    obtain ⟨v, c1, htarget, hmodify⟩ := ok_of_run_bind h
    cases hmodify
    obtain ⟨hv, rfl⟩ := run_target_eq_ok_iff.mp htarget
    exact ⟨o, next, v, hdecode, hv, rfl⟩
  · rintro ⟨o, next, v, hdecode, hv, rfl⟩
    have htarget := run_target_of_aim? hv
    exact run_bind_eq_ok_iff.mpr ⟨o, next, hdecode, run_bind_eq_ok_iff.mpr ⟨v, _, htarget, rfl⟩⟩

/-- **A call** finds its destination in the state with the return address on the stack. -/
theorem run_call_eq_ok_iff : call.run c = .ok u c' ↔
    ∃ o next pushed v, decode.run c = .ok o next ∧ (push next.pc).run next = .ok () pushed ∧
      pushed.aim? o = some v ∧ c' = (pushed.settled o).setReg .pc v := by
  unfold call
  constructor
  · intro h
    obtain ⟨o, next, hdecode, h⟩ := ok_of_run_bind h
    obtain ⟨_, _, hget, h⟩ := ok_of_run_bind h
    cases hget
    obtain ⟨_, pushed, hpush, h⟩ := ok_of_run_bind h
    obtain ⟨v, c1, htarget, hmodify⟩ := ok_of_run_bind h
    cases hmodify
    obtain ⟨hv, rfl⟩ := run_target_eq_ok_iff.mp htarget
    exact ⟨o, next, pushed, v, hdecode, hpush, hv, rfl⟩
  · rintro ⟨o, next, pushed, v, hdecode, hpush, hv, rfl⟩
    have htarget := run_target_of_aim? hv
    refine run_bind_eq_ok_iff.mpr ⟨o, next, hdecode, run_bind_eq_ok_iff.mpr ⟨next, next, rfl, ?_⟩⟩
    exact run_bind_eq_ok_iff.mpr ⟨(), pushed, hpush, run_bind_eq_ok_iff.mpr ⟨v, _, htarget, rfl⟩⟩

end Cpu
end Sx16
