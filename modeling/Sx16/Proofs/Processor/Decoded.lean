/-
# Reading the bytes ahead

Bytes that lie ahead of the program counter are fetched one after the other, and the program counter
ends behind them. The operand bytes that an encoder wrote are decoded to what it wrote, and a register
number to the register.

Key definitions: `Cpu.past`, `Cpu.Ahead`.
Key theorems: `Cpu.run_fetch`, `Cpu.run_descriptor`, `Cpu.run_decode`, `Cpu.run_advanceBy`.
-/
import Sx16.Processor.Execute

namespace Sx16

/-! ### Descriptor bytes -/

theorem Register.index_lt (r : Register) : r.index < 16 := by
  cases r <;> decide

theorem Register.noIndex_lt : Register.noIndex < 16 := by decide

theorem Descriptor.ofByte_toByte {dst src : UInt8} (hd : dst < 16) (hs : src < 16) :
    Descriptor.ofByte (Descriptor.mk dst src).toByte = ⟨dst, src⟩ := by
  have hall : ∀ d s : Fin 16, Descriptor.ofByte (Descriptor.mk (UInt8.ofNat d.val)
      (UInt8.ofNat s.val)).toByte = ⟨UInt8.ofNat d.val, UInt8.ofNat s.val⟩ := by
    decide +kernel
  have hpair := hall ⟨dst.toNat, UInt8.lt_iff_toNat_lt.mp hd⟩
    ⟨src.toNat, UInt8.lt_iff_toNat_lt.mp hs⟩
  rwa [UInt8.ofNat_toNat, UInt8.ofNat_toNat] at hpair

namespace Cpu

variable {c : Cpu} {b : UInt8} {bs : List UInt8} {w : UInt16} {n : Nat}

/-! ### States with another program counter -/

theorem setReg_setReg (c : Cpu) (r : Register) (v w : UInt16) :
    (c.setReg r v).setReg r w = c.setReg r w := by
  unfold setReg
  cases r.slot? with
  | none => rfl
  | some i => simp

theorem setReg_reg (c : Cpu) (r : Register) : c.setReg r (c.reg r) = c := by
  unfold setReg reg
  cases r.slot? with
  | none => rfl
  | some i => simp

@[simp] theorem memory_setReg (c : Cpu) (r : Register) (v : UInt16) :
    (c.setReg r v).memory = c.memory := by
  unfold setReg
  cases r.slot? <;> rfl

@[simp] theorem top_setReg (c : Cpu) (r : Register) (v : UInt16) : (c.setReg r v).top = c.top := by
  unfold setReg
  cases r.slot? <;> rfl

theorem pending_setReg (c : Cpu) (r : Register) (v : UInt16) : (c.setReg r v).pending = c.pending := by
  unfold setReg
  cases r.slot? <;> rfl

theorem halted_setReg (c : Cpu) (r : Register) (v : UInt16) : (c.setReg r v).halted = c.halted := by
  unfold setReg
  cases r.slot? <;> rfl

theorem pc_setReg_pc (c : Cpu) (v : UInt16) : (c.setReg .pc v).pc = v :=
  (reg_setReg c .pc .pc v).trans (if_pos rfl)

/-- The state with the program counter some bytes further. -/
def past (c : Cpu) (n : Nat) : Cpu := c.setReg .pc (c.pc + UInt16.ofNat n)

theorem pc_past (c : Cpu) (n : Nat) : (c.past n).pc = c.pc + UInt16.ofNat n := pc_setReg_pc c _

@[simp] theorem memory_past (c : Cpu) (n : Nat) : (c.past n).memory = c.memory := memory_setReg c _ _

@[simp] theorem sp_past (c : Cpu) (n : Nat) : (c.past n).sp = c.sp :=
  (reg_setReg c .pc .sp _).trans (if_neg (by decide))

theorem past_zero (c : Cpu) : c.past 0 = c := by
  have hpc : c.pc + UInt16.ofNat 0 = c.reg .pc := UInt16.add_zero _
  rw [past, hpc, setReg_reg]

theorem past_past (c : Cpu) (m n : Nat) : (c.past m).past n = c.past (m + n) := by
  rw [past, pc_past, past, setReg_setReg, past, UInt16.add_assoc, ← UInt16.ofNat_add]

/-! ### Bytes ahead of the program counter -/

/-- Bytes that lie ahead of the program counter, which does not pass the last address there. -/
structure Ahead (bs : List UInt8) (c : Cpu) : Prop where
  inside : c.pc.toNat + bs.length ≤ 0xFFFF
  bytes : ∀ k b, bs[k]? = some b → c.memory.byte (c.pc + UInt16.ofNat k) = b

instance (bs : List UInt8) (c : Cpu) : Decidable (Ahead bs c) :=
  decidable_of_iff
    (c.pc.toNat + bs.length ≤ 0xFFFF ∧
      ∀ k (hk : k < bs.length), c.memory.byte (c.pc + UInt16.ofNat k) = bs[k])
    ⟨fun ⟨hinside, hbytes⟩ => ⟨hinside, fun k b hk => by
        obtain ⟨hlt, rfl⟩ := List.getElem?_eq_some_iff.mp hk
        exact hbytes k hlt⟩,
      fun ⟨hinside, hbytes⟩ => ⟨hinside, fun k hk => hbytes k _ (List.getElem?_eq_getElem hk)⟩⟩

theorem toNat_pc_past (h : c.pc.toNat + n ≤ 0xFFFF) : (c.past n).pc.toNat = c.pc.toNat + n := by
  rw [pc_past, UInt16.toNat_add, UInt16.toNat_ofNat']
  omega

namespace Ahead

theorem byte (h : Ahead (b :: bs) c) : c.memory.byte c.pc = b := by
  have hfirst := h.bytes 0 b rfl
  rwa [show c.pc + UInt16.ofNat 0 = c.pc from UInt16.add_zero _] at hfirst

theorem tail (h : Ahead (b :: bs) c) : Ahead bs (c.past 1) where
  inside := by
    have hle := h.inside
    rw [List.length_cons] at hle
    rw [toNat_pc_past (by omega)]
    omega
  bytes := by
    intro k b' hk
    have hbyte := h.bytes (k + 1) b' (by rwa [List.getElem?_cons_succ])
    rw [memory_past, pc_past, UInt16.add_assoc, ← UInt16.ofNat_add, Nat.add_comm]
    exact hbyte

theorem next_ne_zero (h : Ahead (b :: bs) c) : (c.past 1).pc ≠ 0 := by
  have hle := h.inside
  rw [List.length_cons] at hle
  intro hzero
  have hnat := toNat_pc_past (c := c) (n := 1) (by omega)
  rw [hzero] at hnat
  exact absurd hnat (by simp)

end Ahead

/-! ### Fetching -/

theorem run_advance (h : (c.past 1).pc ≠ 0) : advance.run c = .ok () (c.past 1) := by
  have hpc : c.pc + 1 ≠ 0 := by
    rwa [pc_past] at h
  unfold advance
  rw [EStateM.run_bind, EStateM.run_get]
  simp only
  rw [EStateM.run_bind, EStateM.run_modify]
  simp only
  rw [if_neg hpc]
  rfl

theorem run_fetch (h : Ahead (b :: bs) c) : fetch.run c = .ok b (c.past 1) := by
  unfold fetch
  rw [EStateM.run_bind, EStateM.run_get]
  simp only
  rw [EStateM.run_bind, run_advance h.next_ne_zero]
  simp only
  rw [h.byte]
  rfl

theorem run_fetchWord (h : Ahead (Word.bytes w ++ bs) c) : fetchWord.run c = .ok w (c.past 2) := by
  have hlow : Ahead (Word.low w :: Word.high w :: bs) c := h
  unfold fetchWord
  rw [EStateM.run_bind, run_fetch hlow]
  simp only
  rw [EStateM.run_bind, run_fetch hlow.tail]
  simp only
  rw [past_past, EStateM.run_pure, Word.ofBytes_low_high]

theorem run_advanceBy (h : Ahead bs c) : (advanceBy bs.length).run c = .ok () (c.past bs.length) := by
  induction bs generalizing c with
  | nil =>
    rw [List.length_nil, past_zero]
    rfl
  | cons b bs ih =>
    rw [List.length_cons, advanceBy, EStateM.run_bind, run_advance h.next_ne_zero]
    simp only
    rw [ih h.tail, past_past, Nat.add_comm]

/-! ### Decoding -/

theorem run_descriptor {dst src : UInt8} (hd : dst < 16) (hs : src < 16)
    (h : Ahead ((Descriptor.mk dst src).toByte :: bs) c) :
    descriptor.run c = .ok ⟨dst, src⟩ (c.past 1) := by
  unfold descriptor
  rw [EStateM.run_bind, run_fetch h]
  simp only
  rw [Descriptor.ofByte_toByte hd hs]
  rfl

theorem run_modes (m : AddressMode) (u : UpdateMode) (c : Cpu) :
    (modes (m.byte u)).run c = .ok (u, m) c := by
  unfold modes
  rw [nibbles_byte]
  simp only [AddressMode.ofCode?_code, UpdateMode.ofCode?_code]
  rfl

/-- **Operand bytes are decoded** to what was encoded. -/
theorem run_decode {dst src : UInt8} {m : AddressMode} {u : UpdateMode} {payload : Option UInt16}
    (hd : dst < 16) (hs : src < 16) (hm : m.hasPayload = payload.isSome)
    (h : Ahead ([(Descriptor.mk dst src).toByte, m.byte u] ++ (payload.map Word.bytes).getD []) c) :
    decode.run c = .ok ⟨⟨dst, src⟩, m, u, payload.getD 0⟩ (c.past (2 + m.payloadSize)) := by
  have hdesc : Ahead ((Descriptor.mk dst src).toByte :: m.byte u ::
      (payload.map Word.bytes).getD []) c := h
  unfold decode
  rw [EStateM.run_bind, run_descriptor hd hs hdesc]
  simp only
  rw [EStateM.run_bind, run_fetch hdesc.tail]
  simp only
  rw [EStateM.run_bind, run_modes]
  simp only
  rw [past_past, AddressMode.payloadSize, hm]
  cases payload with
  | none => rfl
  | some v =>
    have hword : Ahead (Word.bytes v ++ []) (c.past 2) := by
      rw [List.append_nil, ← past_past c 1 1]
      exact hdesc.tail.tail
    rw [Option.isSome_some, if_pos rfl, if_pos rfl, EStateM.run_bind, run_fetchWord hword, past_past]
    rfl

/-! ### Registers by number -/

variable {r : Register} {v : UInt16}

theorem run_operand (r : Register) (c : Cpu) : (operand r.index).run c = .ok (c.reg r) c := by
  unfold operand named
  rw [Register.ofIndex?_index]
  rfl

theorem run_setOperand (r : Register) (v : UInt16) (c : Cpu) :
    (setOperand r.index v).run c = .ok () (c.setReg r v) := by
  unfold setOperand named
  rw [Register.ofIndex?_index]
  rfl

/-- A step of zero changes nothing and asks for no register. -/
theorem run_stepOperand_zero (i : UInt8) (c : Cpu) : (stepOperand i 0).run c = .ok () c := rfl

/-- The state with a step added to a register. -/
def moved (c : Cpu) (r : Register) (delta : Int16) : Cpu := c.setReg r (c.reg r + delta.toUInt16)

theorem moved_zero (c : Cpu) (r : Register) : c.moved r 0 = c :=
  (congrArg (c.setReg r) (UInt16.add_zero _)).trans (setReg_reg c r)

/-- A step of a register that exists changes it, also a step of zero. -/
theorem run_stepOperand (r : Register) (delta : Int16) (c : Cpu) :
    (stepOperand r.index delta).run c = .ok () (c.moved r delta) := by
  by_cases hd : delta = 0
  · subst hd
    rw [moved_zero]
    exact run_stepOperand_zero _ c
  · unfold stepOperand
    rw [if_pos (bne_iff_ne.mpr hd), EStateM.run_bind, run_operand]
    exact run_setOperand r _ c

end Cpu
end Sx16
