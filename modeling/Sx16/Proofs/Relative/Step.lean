/-
# Executing an operand made relative

The program counter is at the next instruction when an operand is used, so an operand relative to it
denotes what the operand itself denotes. Two processors that differ in the five bytes of the
instruction alone are therefore the same but for these bytes after the instruction, or have the same
fault. An instruction that ends at the last address has no next instruction and always has a fault.

Key definitions: `Instruction.effect`, `Cpu.AgreeOutside`, `Cpu.SameStep`.
Key theorems: `Instruction.does_effect`, `Instruction.MadeRelative.effect`, `Cpu.step_relative`.
-/
import Sx16.Proofs.Processor.Executed
import Sx16.Proofs.Relative.Filled

namespace Sx16

/-! ### What an instruction does -/

/-- What an instruction does whose symbol stands for `w`, from a state whose program counter is at the
next instruction. A call pushes the program counter before it finds its destination. -/
def Instruction.effect (w : UInt16) (c : Cpu) (i : Instruction) : Except Fault Cpu :=
  match i.mnemonic, i.arguments with
  | .call, .jump o => do
    let c1 ← c.pushed c.pc
    return c1.setReg .pc (o.destination c1 w)
  | _, _ => i.meaning w c

namespace Cpu

variable {c c' : Cpu} {w : UInt16} {o : Operand}

theorem does_call (h : Ahead (o.tail Register.noIndex .regDirectAddition w) c) :
    Does (execute .call) c
      ((Instruction.mk .call (.jump o)).effect w
        (c.past (o.tail Register.noIndex .regDirectAddition w).length)) := by
  refine Does.bind (run_decode_tail Register.noIndex_lt rfl h) ?_
  refine Does.bind (EStateM.run_get _) ?_
  refine Does.seq (does_push _ _) fun c1 _ => ?_
  exact Does.bind (run_target o _ w c1) (EStateM.run_modify _ _)

end Cpu

open Cpu

/-- **The operation of an instruction** does with the bytes behind it what the instruction does. -/
theorem Instruction.does_effect {i : Instruction} {c : Cpu} {w : UInt16} {bs : List UInt8}
    (hfit : i.arguments.Fit i.mnemonic.form)
    (hbs : i.encode.filled w = i.mnemonic.opcode.code :: bs) (h : Ahead bs c) :
    Does (execute i.mnemonic.opcode) c (i.effect w (c.past bs.length)) := by
  by_cases hcall : i.mnemonic = .call
  · obtain ⟨m, args⟩ := i
    obtain rfl : m = .call := hcall
    cases args with
    | jump o =>
      obtain rfl := (List.cons.inj ((o.filled_encode _ _ _ w).symm.trans hbs)).2
      exact does_call h
    | none | one | two | data => exact hfit.elim
  · have heffect : i.effect w (c.past bs.length) = i.meaning w (c.past bs.length) := by
      unfold effect
      split
      · rename_i hm _
        exact absurd hm hcall
      · rfl
    rw [heffect]
    exact i.does_execute hfit hcall hbs h

/-! ### Instructions of five bytes -/

/-- An instruction of five bytes: its operation, a descriptor, a mode with a payload, and the payload,
which is the word that its symbol stands for. -/
structure Instruction.Wide (i : Instruction) : Prop where
  form : i.mnemonic.form = .jump ∨ i.mnemonic.form = .data
  fit : i.arguments.Fit i.mnemonic.form
  head : ∃ (dst src : UInt8) (mode : AddressMode), dst < 16 ∧ src < 16 ∧ mode.hasPayload = true ∧
    i.head = [i.mnemonic.opcode.code, (Descriptor.mk dst src).toByte, mode.byte .none]
  filled : ∀ w, i.encode.filled w = i.head ++ Word.bytes w

namespace Instruction.MadeRelative

variable {x : String} {i i' : Instruction}

theorem mnemonic (h : MadeRelative x i i') : i'.mnemonic = i.mnemonic := by
  cases h <;> rfl

theorem wide (h : MadeRelative x i i') : i.Wide := by
  cases h with
  | jump hm =>
    exact ⟨.inl hm, by rw [hm]; trivial, ⟨_, _, .immediate, Register.noIndex_lt, Register.noIndex_lt,
      rfl, rfl⟩, fun _ => rfl⟩
  | data hm r =>
    exact ⟨.inr hm, by rw [hm]; trivial, ⟨_, _, .memory, r.index_lt, Register.noIndex_lt, rfl, rfl⟩,
      fun _ => rfl⟩

theorem wide' (h : MadeRelative x i i') : i'.Wide := by
  cases h with
  | jump hm =>
    exact ⟨.inl hm, by rw [hm]; trivial, ⟨_, _, .regDirectAddition, Register.noIndex_lt,
      Register.index_lt .pc, rfl, rfl⟩, fun _ => rfl⟩
  | data hm r =>
    exact ⟨.inr hm, by rw [hm]; trivial, ⟨_, _, .regIndirectOffset, r.index_lt,
      Register.index_lt .pc, rfl, rfl⟩, fun _ => rfl⟩

/-- **An operand made relative** to the program counter denotes what it denoted before, if its word is
the distance from the program counter. -/
theorem effect (h : MadeRelative x i i') (w : UInt16) (c : Cpu) :
    i'.effect (w - c.pc) c = i.effect w c := by
  have hback : ∀ c1 : Cpu, c1.pc = c.pc → c1.pc + (w - c.pc) = w := by
    intro c1 hpc
    rw [hpc, UInt16.add_comm, UInt16.sub_add_cancel]
  cases h with
  | @jump m hm =>
    have hdestination : ∀ c1 : Cpu, c1.pc = c.pc → (Operand.pcRelative x).destination c1 (w - c.pc) =
        (Operand.immediate (.symbol x)).destination c1 w := hback
    cases m
    case call =>
      show (c.pushed c.pc >>= fun c1 => Except.ok (c1.setReg .pc _)) =
        (c.pushed c.pc >>= fun c1 => Except.ok (c1.setReg .pc _))
      cases hpush : c.pushed c.pc with
      | error e => rfl
      | ok c1 =>
        refine congrArg Except.ok (congrArg (c1.setReg .pc) ?_)
        exact hdestination c1 (pc_of_pushed hpush)
    case jmp | jeq | jne | jgt =>
      refine congrArg Except.ok ?_
      show (if Mnemonic.jumps c _ then c.setReg .pc _ else c) = _
      rw [hdestination c rfl]
    all_goals cases hm
  | @data m hm r =>
    have hlocation : (Operand.pcRelative x).location c (w - c.pc) =
        (Operand.memory (.symbol x)).location c w := congrArg Location.cell (hback c rfl)
    cases m
    case ldr =>
      refine congrArg Except.ok ?_
      show c.setReg r (Location.get c _) = _
      rw [hlocation]
    case str =>
      show ((Operand.pcRelative x).location c (w - c.pc)).put c (c.reg r) =
        ((Operand.memory (.symbol x)).location c w).put c (c.reg r)
      rw [hlocation]
    all_goals cases hm

end Instruction.MadeRelative

/-! ### Processors that differ in five bytes -/

/-- Two states that are the same but for the five bytes at an address. -/
structure Cpu.AgreeOutside (a : UInt16) (c c' : Cpu) : Prop where
  bytes : ∀ b, Outside a b → c'.memory.byte b = c.memory.byte b
  registers : c'.registers = c.registers
  psw : c'.psw = c.psw
  pending : c'.pending = c.pending
  top : c'.top = c.top
  halted : c'.halted = c.halted

/-- Two outcomes that are the same fault, or states that are the same but for the five bytes at an
address. -/
inductive Cpu.SameOutcome (a : UInt16) : Except Fault Cpu → Except Fault Cpu → Prop where
  | fault (e : Fault) : SameOutcome a (.error e) (.error e)
  | state {c c' : Cpu} (h : AgreeOutside a c c') : SameOutcome a (.ok c) (.ok c')

/-- Two steps that ended in the same fault, or executed the same operation and left states that are the
same but for the five bytes at an address. -/
inductive Cpu.SameStep (a : UInt16) :
    EStateM.Result Fault Cpu Retired → EStateM.Result Fault Cpu Retired → Prop where
  | fault (e : Fault) (c c' : Cpu) : SameStep a (.error e c) (.error e c')
  | retired (t : Retired) {c c' : Cpu} (h : AgreeOutside a c c') : SameStep a (.ok t c) (.ok t c')

theorem Cpu.SameOutcome.bind {a : UInt16} {r r' : Except Fault Cpu} {g : Cpu → Except Fault Cpu}
    (h : SameOutcome a r r') (hg : ∀ c c', AgreeOutside a c c' → SameOutcome a (g c) (g c')) :
    SameOutcome a (r >>= g) (r' >>= g) := by
  cases h with
  | fault e => exact .fault e
  | state h => exact hg _ _ h

namespace Cpu.AgreeOutside

variable {a b v : UInt16} {c c' : Cpu}

theorem reg (h : AgreeOutside a c c') (r : Register) : c'.reg r = c.reg r := by
  unfold Cpu.reg
  rw [h.registers, h.psw]

theorem flag (h : AgreeOutside a c c') (f : Flag) : c'.flag f = c.flag f := by
  unfold Cpu.flag
  rw [h.psw]

theorem word (h : AgreeOutside a c c') (hb : Outside a b) (hnext : Outside a (b + 1)) :
    c'.memory.word b = c.memory.word b := by
  unfold Memory.word
  rw [h.bytes b hb, h.bytes (b + 1) hnext]

theorem setReg (h : AgreeOutside a c c') (r : Register) (v : UInt16) :
    AgreeOutside a (c.setReg r v) (c'.setReg r v) := by
  unfold Cpu.setReg
  cases r.slot? with
  | none => exact { h with psw := rfl }
  | some i => exact { h with registers := congrArg (Vector.set · i v) h.registers }

theorem putWord (h : AgreeOutside a c c') (b v : UInt16) :
    AgreeOutside a (c.putWord b v) (c'.putWord b v) := by
  refine { h with bytes := fun x hx => ?_ }
  show (c'.memory.putWord b v).byte x = (c.memory.putWord b v).byte x
  unfold Memory.putWord
  rw [Memory.byte_putByte, Memory.byte_putByte, Memory.byte_putByte, Memory.byte_putByte, h.bytes x hx]

theorem past (h : AgreeOutside a c c') (n : Nat) : AgreeOutside a (c.past n) (c'.past n) := by
  unfold Cpu.past Cpu.pc
  rw [h.reg]
  exact h.setReg .pc _

theorem pushed (h : AgreeOutside a c c') (v : UInt16) :
    SameOutcome a (c.pushed v) (c'.pushed v) := by
  unfold Cpu.pushed Cpu.sp
  rw [h.reg, h.top]
  split
  · exact .fault _
  · exact .state ((h.setReg .sp _).putWord _ v)

/-- **What an instruction with an operand does** to both states is the same but for the five bytes, if
the word of a load or store is none of them. -/
theorem effect (h : AgreeOutside a c c') {x : String} {i i' : Instruction}
    (hi : i.MadeRelative x i') (hcell : i.mnemonic.form = .data → Outside a v ∧ Outside a (v + 1)) :
    SameOutcome a (i.effect v c) (i.effect v c') := by
  cases hi with
  | @jump m hm =>
    have hjumps : m.jumps c' = m.jumps c := by
      cases m <;> simp only [Mnemonic.jumps, h.flag]
    cases m
    case call =>
      show SameOutcome a (c.pushed c.pc >>= fun c1 => Except.ok (c1.setReg .pc v))
        (c'.pushed c'.pc >>= fun c1 => Except.ok (c1.setReg .pc v))
      have hpc : c'.pc = c.pc := h.reg .pc
      rw [hpc]
      exact (h.pushed c.pc).bind fun c1 c1' h1 => .state (h1.setReg .pc v)
    case jmp | jeq | jne | jgt =>
      refine .state ?_
      show AgreeOutside a (if Mnemonic.jumps c _ then c.setReg .pc v else c)
        (if Mnemonic.jumps c' _ then c'.setReg .pc v else c')
      rw [hjumps]
      split
      · exact h.setReg .pc v
      · exact h
    all_goals cases hm
  | @data m hm r =>
    obtain ⟨hfirst, hsecond⟩ := hcell hm
    cases m
    case ldr =>
      refine .state ?_
      show AgreeOutside a (c.setReg r (c.memory.word v)) (c'.setReg r (c'.memory.word v))
      rw [h.word hfirst hsecond]
      exact h.setReg r _
    case str =>
      refine .state ?_
      show AgreeOutside a (c.putWord v (c.reg r)) (c'.putWord v (c'.reg r))
      rw [h.reg]
      exact h.putWord v _
    all_goals cases hm

end Cpu.AgreeOutside

/-! ### The last address -/

namespace Cpu

variable {c : Cpu} {n : Nat}

/-- The program counter does not pass the last address. -/
theorem run_advance_error (h : c.pc.toNat = 0xFFFF) :
    advance.run c = .error .pcOutOfBounds (c.past 1) := by
  have hpc : c.pc + 1 = 0 := by
    apply UInt16.toNat_inj.mp
    rw [UInt16.toNat_add, h]
    rfl
  unfold advance
  rw [EStateM.run_bind, EStateM.run_get]
  simp only
  rw [EStateM.run_bind, EStateM.run_modify]
  simp only
  rw [if_pos hpc]
  rfl

theorem does_advanceBy_error (h : c.pc.toNat + n = 0x10000) (hn : 0 < n) :
    Does (advanceBy n) c (.error .pcOutOfBounds) := by
  induction n generalizing c with
  | zero => exact absurd hn (Nat.lt_irrefl 0)
  | succ n ih =>
    by_cases hlast : n = 0
    · obtain rfl := hlast
      refine ⟨c.past 1, ?_⟩
      rw [advanceBy, EStateM.run_bind, run_advance_error (by omega)]
    · have hnext := toNat_pc_past (c := c) (n := 1) (by omega)
      have hne : (c.past 1).pc ≠ 0 := fun hzero => by
        rw [hzero] at hnext
        exact absurd hnext (by simp)
      exact Does.bind (run_advance hne) (ih (by omega) (by omega))

variable {dst src lo : UInt8} {mode : AddressMode} {m : Mnemonic}

/-- Operand bytes with a payload up to the last address cannot be decoded. -/
theorem run_decode_error (hd : dst < 16) (hs : src < 16) (hm : mode.hasPayload = true)
    (h : Ahead [(Descriptor.mk dst src).toByte, mode.byte .none, lo] c)
    (hlast : c.pc.toNat + 4 = 0x10000) : ∃ c', decode.run c = .error .pcOutOfBounds c' := by
  have hthird : (c.past 3).pc.toNat = 0xFFFF := by
    rw [toNat_pc_past (by omega)]
    omega
  refine ⟨(c.past 3).past 1, ?_⟩
  unfold decode
  rw [EStateM.run_bind, run_descriptor hd hs h]
  simp only
  rw [EStateM.run_bind, run_fetch h.tail]
  simp only
  rw [EStateM.run_bind, run_modes]
  simp only
  rw [if_pos hm, EStateM.run_bind, fetchWord, EStateM.run_bind, run_fetch h.tail.tail]
  simp only
  rw [past_past, past_past, EStateM.run_bind, fetch, EStateM.run_bind, EStateM.run_get]
  simp only
  rw [EStateM.run_bind, run_advance_error hthird]

theorem does_decode_error {f : Decoded → Exec Unit} (h : ∃ c', decode.run c = .error .pcOutOfBounds c') :
    Does (decode >>= f) c (.error .pcOutOfBounds) := by
  obtain ⟨c', hrun⟩ := h
  refine ⟨c', ?_⟩
  rw [EStateM.run_bind, hrun]

/-- **An operation whose operand bytes end at the last address** has a fault, also if it is a jump that
is not taken. -/
theorem does_execute_error (hform : m.form = .jump ∨ m.form = .data) (hd : dst < 16) (hs : src < 16)
    (hm : mode.hasPayload = true)
    (h : Ahead [(Descriptor.mk dst src).toByte, mode.byte .none, lo] c)
    (hlast : c.pc.toNat + 4 = 0x10000) : Does (execute m.opcode) c (.error .pcOutOfBounds) := by
  have hdecode := run_decode_error hd hs hm h hlast
  have hjump : ∀ taken, Does (jump taken) c (.error .pcOutOfBounds) := by
    intro taken
    cases taken with
    | true => exact does_decode_error hdecode
    | false =>
      have hbyte : c.memory.byte (c.pc + 1) = mode.byte .none := h.bytes 1 _ rfl
      have hmodes : (modes (c.memory.byte (c.pc + 1))).run c = .ok (.none, mode) c := by
        rw [hbyte, run_modes]
      have hsize : 2 + mode.payloadSize = 4 := by
        rw [AddressMode.payloadSize, if_pos hm]
      refine Does.bind (EStateM.run_get c) (Does.bind hmodes ?_)
      show Does (advanceBy (2 + mode.payloadSize)) c _
      rw [hsize]
      exact does_advanceBy_error hlast (by omega)
  cases m
  case call => exact does_decode_error hdecode
  case jmp => exact hjump true
  case jeq | jne | jgt => exact Does.bind (EStateM.run_get c) (hjump _)
  case ldr => exact does_decode_error hdecode
  case str => exact does_decode_error hdecode
  all_goals simp [Mnemonic.form] at hform

end Cpu

/-! ### One step -/

/-- What a step does with an instruction of five bytes: its effect, unless it ends at the last
address. -/
def Instruction.outcome (w : UInt16) (c : Cpu) (i : Instruction) : Except Fault Cpu :=
  if c.pc.toNat + 5 = addressSpace then .error .pcOutOfBounds else i.effect w (c.past 5)

/-- **A step with an instruction of five bytes** at the program counter. -/
theorem Cpu.step_of_wide {c : Cpu} {i : Instruction} {w : UInt16} (hi : i.Wide)
    (hinside : c.pc.toNat + 5 ≤ addressSpace)
    (hbytes : ∀ k < 5, (i.head ++ Word.bytes w)[k]? = some (c.memory.byte (c.pc + UInt16.ofNat k))) :
    match Cpu.step.run c with
    | .ok t c1 => t = ⟨c.pc, i.mnemonic.opcode⟩ ∧ i.outcome w c = .ok c1
    | .error e _ => i.outcome w c = .error e := by
  obtain ⟨dst, src, mode, hd, hs, hmode, hhead⟩ := hi.head
  let bs := [(Descriptor.mk dst src).toByte, mode.byte .none] ++ Word.bytes w
  have hcons : i.head ++ Word.bytes w = i.mnemonic.opcode.code :: bs := by
    rw [hhead]
    rfl
  have hlen : bs.length = 4 := rfl
  have hbyte : ∀ k b, (i.mnemonic.opcode.code :: bs)[k]? = some b →
      c.memory.byte (c.pc + UInt16.ofNat k) = b := by
    intro k b hk
    have hlt : k < 5 := (List.getElem?_eq_some_iff.mp hk).1
    have hk' := hbytes k hlt
    rw [hcons, hk] at hk'
    exact (Option.some.inj hk').symm
  unfold Instruction.outcome
  by_cases hlast : c.pc.toNat + 5 = addressSpace
  · have hlast' : c.pc.toNat + 5 = 0x10000 := hlast
    have hahead : Ahead [i.mnemonic.opcode.code, (Descriptor.mk dst src).toByte, mode.byte .none,
        Word.low w] c := by
      refine ⟨?_, fun k b hk => hbyte k b ?_⟩
      · show c.pc.toNat + 4 ≤ 0xFFFF
        omega
      · have hlt : k < 4 := (List.getElem?_eq_some_iff.mp hk).1
        show ([i.mnemonic.opcode.code, (Descriptor.mk dst src).toByte, mode.byte .none,
          Word.low w] ++ [Word.high w])[k]? = some b
        rw [List.getElem?_append_left hlt]
        exact hk
    have hnext : (c.past 1).pc.toNat + 4 = 0x10000 := by
      rw [toNat_pc_past (by omega)]
      omega
    rw [if_pos hlast]
    exact step_of_does hahead (does_execute_error hi.form hd hs hmode hahead.tail hnext)
  · have hahead : Ahead (i.mnemonic.opcode.code :: bs) c := by
      refine ⟨?_, hbyte⟩
      rw [List.length_cons, hlen]
      unfold addressSpace at hinside hlast
      omega
    have hdoes := i.does_effect hi.fit ((hi.filled w).trans hcons) hahead.tail
    rw [past_past, hlen] at hdoes
    rw [if_neg hlast]
    exact step_of_does hahead hdoes

/-- **A step with an operand made relative.** Two processors that are the same but for an instruction,
which stands in one as it was and in the other with its operand made relative to the program counter,
have the same fault, or are the same but for the instruction after the step. The word that a load or
store uses may not lie in the instruction. -/
theorem Cpu.step_relative {x : String} {i i' : Instruction} {c c' : Cpu} {t : UInt16}
    (hi : i.MadeRelative x i') (h : AgreeOutside c.pc c c')
    (hinside : c.pc.toNat + 5 ≤ addressSpace)
    (hold : ∀ k < 5, (i.head ++ Word.bytes t)[k]? = some (c.memory.byte (c.pc + UInt16.ofNat k)))
    (hnew : ∀ k < 5, (i'.head ++ Word.bytes (t - (c.pc + 5)))[k]? =
      some (c'.memory.byte (c.pc + UInt16.ofNat k)))
    (hcell : i.mnemonic.form = .data → Outside c.pc t ∧ Outside c.pc (t + 1)) :
    SameStep c.pc (Cpu.step.run c) (Cpu.step.run c') := by
  have hpc : c'.pc = c.pc := h.reg .pc
  have hstep := step_of_wide hi.wide hinside hold
  have hstep' := step_of_wide (c := c') hi.wide' (by rw [hpc]; exact hinside) (by rw [hpc]; exact hnew)
  have hsame : SameOutcome c.pc (i.outcome t c) (i'.outcome (t - (c.pc + 5)) c') := by
    unfold Instruction.outcome
    rw [hpc]
    split
    · exact .fault _
    · have hnext : (c'.past 5).pc = c.pc + 5 := by
        rw [pc_past, hpc]
        rfl
      rw [← hnext, hi.effect]
      exact (h.past 5).effect hi hcell
  rw [hpc, hi.mnemonic] at hstep'
  cases hrun : Cpu.step.run c with
  | ok t1 c1 =>
    rw [hrun] at hstep
    obtain ⟨rfl, hout⟩ := hstep
    rw [hout] at hsame
    cases hrun' : Cpu.step.run c' with
    | ok t1' c1' =>
      rw [hrun'] at hstep'
      obtain ⟨rfl, hout'⟩ := hstep'
      rw [hout'] at hsame
      cases hsame with
      | state h1 => exact .retired _ h1
    | error e' c1' =>
      rw [hrun'] at hstep'
      rw [hstep'] at hsame
      cases hsame
  | error e c1 =>
    rw [hrun] at hstep
    rw [hstep] at hsame
    cases hrun' : Cpu.step.run c' with
    | ok t1' c1' =>
      rw [hrun'] at hstep'
      rw [hstep'.2] at hsame
      cases hsame
    | error e' c1' =>
      rw [hrun'] at hstep'
      rw [hstep'] at hsame
      cases hsame
      exact .fault e c1 c1'

end Sx16
