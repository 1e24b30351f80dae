/-
# What one instruction may touch

Few instructions write memory: a store one word, and `CALL` and `INT` the bytes just below the stack
pointer. `HALT` alone changes the halted flag, nothing changes the pending requests or the end of the
image, and the status word changes by `IRET`, by the operations that set flags, and where the operand
bytes name it as a register to be written. All this holds also of a step that fails half-way.

Key definitions: `Cpu.Below`, `Cpu.WritesAt`, `Cpu.NamesStatus`, `Cpu.Touches`.
Key theorems: `Cpu.byteAt_call`, `Cpu.byteAt_interrupt`, `Cpu.byteAt_storeOp`, `Cpu.byteAt_step`,
`Cpu.Spared.of_psw`, `Cpu.step_touches`.
-/
import Sx16.Proofs.Processor.Addressed
import Sx16.Proofs.Processor.Stack

namespace Sx16

open Exec

/-! ### Bytes below the stack pointer -/

namespace Cpu

variable {c c' : Cpu} {a v : UInt16} {n : Nat} {o : Decoded}

/-- An address is one of the `n` just below the stack pointer. -/
def Below (n : Nat) (c : Cpu) (a : UInt16) : Prop :=
  ∃ k < n, a = c.sp - UInt16.ofNat (k + 1)

instance (n : Nat) (c : Cpu) (a : UInt16) : Decidable (Below n c a) :=
  inferInstanceAs (Decidable (∃ k < n, a = c.sp - UInt16.ofNat (k + 1)))

theorem not_below_congr (h : ¬ Below n c a) (hc : stackView c' = stackView c) : ¬ Below n c' a := by
  have hsp : c'.sp = c.sp := (Prod.mk.inj (Prod.mk.inj hc).2).1
  rwa [Below, hsp]

theorem byteAt_push (h : a ≠ c.sp - 2 ∧ a ≠ c.sp - 2 + 1) (v : UInt16) :
    byteAt a (endState (push v) c) = byteAt a c := by
  rw [endState, run_push_eq]
  by_cases hroom : (c.sp - 2).toNat ≤ c.top
  · rw [if_pos hroom]
    exact congrArg (Memory.byte · a) (memory_setReg c .sp _)
  · rw [if_neg hroom]
    exact (byte_stacked c v a).trans ((if_neg h.2.symm).trans (if_neg h.1.symm))

theorem sparesWhere_push (hn : 2 ≤ n) (v : UInt16) :
    SparesWhere (fun c => ¬ Below n c a) a (push v) := by
  refine fun c ha => byteAt_push ⟨fun h => ha ⟨1, by omega, h⟩, fun h => ?_⟩ v
  have hhigh : c.sp - 2 + 1 = c.sp - 1 := by grind
  exact ha ⟨0, by omega, h.trans hhigh⟩

theorem not_below_of_push (v : UInt16) (c c' : Cpu) (ha : ¬ Below (n + 2) c a)
    (h : (push v).run c = .ok () c') : ¬ Below n c' a := by
  rintro ⟨k, hk, rfl⟩
  refine ha ⟨k + 2, by omega, ?_⟩
  rw [ok_of_push h, sp_stacked, UInt16.ofNat_add, UInt16.ofNat_add, UInt16.ofNat_add]
  grind

theorem byteAt_call (h : ¬ Below 2 c a) : byteAt a (endState call c) = byteAt a c :=
  SparesWhere.call not_below_congr (sparesWhere_push le_rfl) c h

theorem byteAt_interrupt (h : ¬ Below 4 c a) : byteAt a (endState interrupt c) = byteAt a c :=
  SparesWhere.interrupt not_below_congr not_below_congr (sparesWhere_push (by decide))
    (sparesWhere_push le_rfl) not_below_of_push c h

/-! ### The word of a store -/

theorem payload_of_decode (h : decode.run c = .ok o c') (hm : o.mode = .regIndirect) :
    o.payload = 0 := by
  obtain ⟨-, ho, -⟩ := run_decode_eq_ok_iff.mp h
  rw [ho, operandAt, hm]
  rfl

/-- Operand bytes of a push name the word below the stack pointer. -/
theorem cell?_of_isPush (h : decode.run c = .ok o c') (ho : isPush o = true) (c1 : Cpu) :
    c1.cell? o = some (c1.sp - 2) := by
  simp only [isPush, Bool.and_eq_true, beq_iff_eq] at ho
  obtain ⟨⟨hm, hsrc⟩, hu⟩ := ho
  have hdown : (UpdateMode.before .preDec).toUInt16 = 0xFFFE := rfl
  have hsp : c1.reg .sp + 0xFFFE + 0 = c1.sp - 2 := by
    rw [sp]
    grind
  simp only [cell?, hm, hsrc, hu, payload_of_decode h hm, Register.ofIndex?_index, Option.map_some, hdown,
    hsp]

theorem byteAt_setReg (c : Cpu) (r : Register) (v : UInt16) : byteAt a (c.setReg r v) = byteAt a c :=
  congrArg (Memory.byte · a) (memory_setReg c r v)

theorem byteAt_putWord {w : UInt16} (h : a ≠ w ∧ a ≠ w + 1) (c : Cpu) (v : UInt16) :
    byteAt a (c.putWord w v) = byteAt a c :=
  (byte_putWord c.memory w a v).trans ((if_neg h.2.symm).trans (if_neg h.1.symm))

/-- **A store** changes no bytes but those of the word that its operand bytes name. -/
theorem byteAt_storeOp
    (h : ∀ o c1 w, decode.run c = .ok o c1 → c1.cell? o = some w → a ≠ w ∧ a ≠ w + 1) :
    byteAt a (endState storeOp c) = byteAt a c := by
  have hblind : ∀ i, Blind (byteAt a) i := Blind.of_setReg byteAt_setReg
  have hstep : ∀ i d, Keeps (byteAt a) (stepOperand i d) := fun i d => keeps_stepOperand fun _ => hblind i
  refine view_bind (keeps_decode (fun c => byteAt_setReg c .pc) c) fun o c1 ho => ?_
  refine view_bind (keeps_operand _ c1) fun v c2 hoperand => ?_
  obtain ⟨-, -, -, rfl⟩ := ok_of_operand hoperand
  split
  · rename_i hpush
    exact byteAt_push (h o c2 _ ho (cell?_of_isPush ho hpush c2)) v
  · cases hm : o.mode with
    | immediate => rfl
    | regDirect | regDirectAddition => exact keeps_setOperand (hblind _) _ c2
    | regIndirect | regIndirectOffset =>
      refine view_bind (hstep _ _ c2) fun u c3 hbefore => ?_
      refine view_bind (keeps_operand _ c3) fun b c4 hread => ?_
      obtain ⟨r, hr, rfl, rfl⟩ := ok_of_updated hbefore hread
      have hcell := h o c2 (c2.reg r + o.update.before.toUInt16 + o.payload) ho
        (by simp only [cell?, hm, hr, Option.map_some])
      exact view_bind (byteAt_putWord hcell _ v) fun u c5 _ => hstep _ _ c5
    | memory => exact byteAt_putWord (h o c2 o.payload ho (by simp only [cell?, hm])) c2 v

/-! ### Memory -/

/-- The addresses of bytes that the instruction of a state may change: those of the word that the operand
bytes of a store name, two below the stack pointer for a call, and four for a software interrupt. -/
def WritesAt (c : Cpu) (a : UInt16) : Prop :=
  match Opcode.ofCode? (c.memory.byte c.pc) with
  | some .str =>
    ∃ o next w, decode.run (c.past 1) = .ok o next ∧ next.cell? o = some w ∧ (a = w ∨ a = w + 1)
  | some .call => Below 2 c a
  | some .int => Below 4 c a
  | _ => False

theorem byteAt_execute {op : Opcode} (hop : op.stores = false) (c : Cpu) :
    byteAt a (endState (execute op) c) = byteAt a c := by
  refine view_execute (Spared.of_setReg byteAt_setReg (fun hstores => ?_) fun _ _ => rfl)
  exact absurd (hop.symm.trans hstores) (by decide)

/-- **A step writes memory** at the addresses that its instruction may write, and nowhere else. -/
theorem byteAt_step (h : ¬ c.WritesAt a) : byteAt a (endState step c) = byteAt a c := by
  refine view_step (fun c => byteAt_setReg c .pc) fun op hop => ?_
  have hbelow : ∀ n, ¬ Below n c a → ¬ Below n (c.past 1) a := fun n hn => by
    rwa [Below, sp_past]
  unfold WritesAt at h
  rw [hop] at h
  cases op with
  | str =>
    refine byteAt_storeOp fun o c1 w ho hw => ?_
    exact not_or.mp fun ha => h ⟨o, c1, w, ho, hw, ha⟩
  | call => exact byteAt_call (hbelow 2 h)
  | int => exact byteAt_interrupt (hbelow 4 h)
  | _ => exact byteAt_execute rfl _

/-! ### The status word -/

/-- The instruction of a state writes the status word as one of its registers, or by returning from an
interrupt. -/
def NamesStatus (c : Cpu) : Prop :=
  ∃ op, Opcode.ofCode? (c.memory.byte c.pc) = some op ∧
    (op = .iret ∨ Register.psw.index ∈ (c.past 1).written op)

/-- An operation that does not write the status word as a register keeps what depends on that word alone,
up to the results of the operation. -/
theorem Spared.of_psw {V : Type} {f : UInt16 → V} {op : Opcode} (hiret : op ≠ .iret)
    (hnamed : Register.psw.index ∉ c.written op)
    (hresults : op.setsResults = true → ∀ g ∈ Flag.results, ∀ psw on, f (g.put on psw) = f psw) :
    Spared (fun c => f c.psw) op c where
  pc := fun c v => congrArg f (psw_setReg (by decide) c v)
  sp := fun c v => congrArg f (psw_setReg (by decide) c v)
  named := by
    intro i hi r hr c v
    refine congrArg f (psw_setReg ?_ c v)
    rintro rfl
    exact hnamed (index_of_ofIndex? hr ▸ hi)
  status := fun h => absurd h hiret
  results := fun h g hg c on => hresults h g hg c.psw on
  memory := fun _ _ _ _ => rfl
  halted := fun _ _ => rfl

/-- A step keeps what depends on the status word alone unless it writes that word or sets results in it. -/
theorem psw_step {V : Type} {f : UInt16 → V} (h : ¬ c.NamesStatus)
    (hresults : ∀ op, Opcode.ofCode? (c.memory.byte c.pc) = some op → op.setsResults = true →
      ∀ g ∈ Flag.results, ∀ psw on, f (g.put on psw) = f psw) :
    f (endState step c).psw = f c.psw := by
  have hpc : ∀ c v, f (setReg c .pc v).psw = f c.psw := fun c v =>
    congrArg f (psw_setReg (by decide) c v)
  refine @view_step _ (fun c => f c.psw) c hpc fun op hop => ?_
  refine view_execute (Spared.of_psw ?_ ?_ (hresults op hop))
  · rintro rfl
    exact h ⟨_, hop, .inl rfl⟩
  · exact fun hmem => h ⟨op, hop, .inr hmem⟩

/-! ### The halted flag -/

/-- A step that changes the halted flag is a `HALT` that succeeds. -/
theorem halts_of_step (h : (endState step c).halted ≠ c.halted) :
    step.run c = .ok ⟨c.pc, .halt⟩ (endState step c) := by
  have hroom : (c.past 1).pc ≠ 0 := by
    intro hzero
    refine h ?_
    rw [endState, run_step, if_pos hzero]
    exact halted_setReg c .pc _
  by_contra hother
  refine h (view_step (fun c => halted_setReg c .pc) fun op hop => ?_)
  refine view_execute (Spared.of_setReg halted_setReg (fun _ _ _ _ => rfl) ?_)
  rintro rfl
  refine absurd ?_ hother
  rw [endState, run_step, if_neg hroom, hop]
  rfl

/-! ### Everything -/

/-- What may differ between a state and the one that its instruction leaves. -/
structure Touches (c c' : Cpu) : Prop where
  pending : c'.pending = c.pending
  top : c'.top = c.top
  halted : c'.halted ≠ c.halted → step.run c = .ok ⟨c.pc, .halt⟩ c'
  memory : ∀ a, c'.memory.byte a ≠ c.memory.byte a → c.WritesAt a
  status : c'.psw ≠ c.psw → c.NamesStatus ∨
    ∃ op, Opcode.ofCode? (c.memory.byte c.pc) = some op ∧ op.setsResults = true
  /-- Operations that set flags by their result change at most the four results. -/
  results : ∀ i, 4 ≤ i → c'.psw.toNat.testBit i ≠ c.psw.toNat.testBit i → c.NamesStatus

/-- **What one instruction may touch**, in any state and whether its step succeeds or fails half-way. The
requests and the end of the image stay, and the halted flag changes by a `HALT` that succeeds. Memory
changes at most in the word of a store, in the two bytes below the stack pointer by `CALL` and in the four
below it by `INT`. The status word changes by `IRET`, where it is a register that the instruction writes,
and, in the four results alone, by `CMP`, `TEST`, `SHL` and `SHR`. -/
theorem step_touches (c : Cpu) : Touches c (endState step c) where
  pending := keeps_step pending_setReg (fun _ _ _ => rfl) (fun _ => rfl) c
  top := keeps_step top_setReg (fun _ _ _ => rfl) (fun _ => rfl) c
  halted := halts_of_step
  memory := fun a => not_imp_comm.mp byteAt_step
  status := by
    intro hchanged
    by_contra! hnone
    obtain ⟨hnames, hsets⟩ := hnone
    exact hchanged (psw_step (f := id) hnames fun op hop hresults => absurd hresults (hsets op hop))
  results := by
    intro i hi
    refine not_imp_comm.mp fun hnone => ?_
    refine psw_step (f := fun psw => psw.toNat.testBit i) hnone fun _ _ _ g hg psw on => ?_
    have hlow := Flag.position_lt_of_mem_results hg
    exact (g.testBit_put on psw i).trans (if_neg (by omega))

end Cpu
end Sx16
