/-
# The bytes of an instruction and what they do

The arguments of an instruction in a source line are of its mnemonic's form. The operand bytes that
the encoder writes are decoded to that operand, and a jump, a load or a store with them does what the
operand means: the encoder chooses modes by the kind of operand and the processor goes by the mode, and
both agree in every case. A push and a pop are a store and a load through the stack pointer.

Key definitions: `Encoded.filled`, `Operand.tail`, `Does`.
Key theorems: `SourceLine.fit_of_ofText`, `Cpu.run_jump`, `Cpu.does_loadOp`, `Cpu.does_storeOp`.
-/
import Sx16.Proofs.Patch
import Sx16.Proofs.Processor.Decoded
import Sx16.Proofs.Processor.Meaning
import Sx16.Proofs.Source.Names
import Sx16.Source.Encoding

namespace Sx16

/-! ### Instructions of source lines -/

/-- **Instructions of source lines** have arguments of their mnemonic's form. -/
theorem SourceLine.fit_of_ofText {text : String} {l : SourceLine} {i : Instruction}
    (h : ofText text = .ok l) (hi : l.statement = some (.instruction i)) :
    i.arguments.Fit i.mnemonic.form :=
  ((ofTokens_eq_ok_iff.mp h).1 _ hi).1

/-! ### The bytes of an instruction -/

/-- The bytes with a word in place of the symbol's. -/
def Encoded.filled (e : Encoded) (w : UInt16) : List UInt8 :=
  match e.fixup with
  | none => e.bytes
  | some f => (putWord e.bytes.toArray f.pos.toNat w).toList

@[simp] theorem Encoded.length_filled (e : Encoded) (w : UInt16) :
    (e.filled w).length = e.bytes.length := by
  unfold filled
  split
  · rfl
  · exact size_putWord _ _ _

namespace Operand

/-- The payload of an operand whose symbol stands for `w`. -/
def word? (w : UInt16) : Operand → Option UInt16
  | immediate v | memory v | indexed _ v => some (v.wordOr w)
  | pcRelative _ => some w
  | register _ | indirect _ => none

/-- The operand bytes behind the operation. -/
def tail (o : Operand) (dst : UInt8) (pcRel : AddressMode) (w : UInt16) : List UInt8 :=
  [(Descriptor.mk dst o.source).toByte, (o.mode pcRel).byte .none] ++
    ((o.word? w).map Word.bytes).getD []

theorem filled_encode (o : Operand) (op dst : UInt8) (pcRel : AddressMode) (w : UInt16) :
    (o.encode op dst pcRel).filled w = op :: o.tail dst pcRel w := by
  cases o with
  | immediate v => cases v <;> rfl
  | memory v => cases v <;> rfl
  | pcRelative name => rfl
  | register r => rfl
  | indirect r => rfl
  | indexed r v => cases v <;> rfl

theorem source_lt (o : Operand) : o.source < 16 := by
  cases o
  case immediate | memory => exact Register.noIndex_lt
  all_goals exact Register.index_lt _

theorem hasPayload_mode (o : Operand) {pcRel : AddressMode} (h : pcRel.hasPayload = true)
    (w : UInt16) : (o.mode pcRel).hasPayload = (o.word? w).isSome := by
  cases o
  case pcRelative => exact h
  all_goals rfl

theorem length_tail (o : Operand) {pcRel : AddressMode} (h : pcRel.hasPayload = true) (dst : UInt8)
    (w : UInt16) : (o.tail dst pcRel w).length = 2 + (o.mode pcRel).payloadSize := by
  rw [tail, AddressMode.payloadSize, o.hasPayload_mode h w]
  cases o.word? w <;> rfl

end Operand

/-- An action ends as told: in a state or with a fault. -/
def Does (x : Exec Unit) (c : Cpu) : Except Fault Cpu → Prop
  | .ok c' => x.run c = .ok () c'
  | .error e => ∃ c', x.run c = .error e c'

theorem Does.bind {α : Type} {x : Exec α} {f : α → Exec Unit} {c c' : Cpu} {a : α}
    {r : Except Fault Cpu} (hx : x.run c = .ok a c') (h : Does (f a) c' r) : Does (x >>= f) c r := by
  cases r with
  | ok c'' =>
    rw [Does, EStateM.run_bind, hx]
    exact h
  | error e =>
    obtain ⟨c'', hrun⟩ := h
    refine ⟨c'', ?_⟩
    rw [EStateM.run_bind, hx]
    exact hrun

theorem Does.seq {x y : Exec Unit} {c : Cpu} {r : Except Fault Cpu} {g : Cpu → Except Fault Cpu}
    (hx : Does x c r) (hy : ∀ c', r = .ok c' → Does y c' (g c')) :
    Does (x >>= fun _ => y) c (r >>= g) := by
  cases r with
  | ok c' => exact Does.bind hx (hy c' rfl)
  | error e =>
    obtain ⟨c', hrun⟩ := hx
    refine ⟨c', ?_⟩
    rw [EStateM.run_bind, hrun]

namespace Cpu

variable {c : Cpu} {w : UInt16} {o : Operand} {r : Register}

/-- What is decoded of an operand. -/
def decodedOf (o : Operand) (dst : UInt8) (pcRel : AddressMode) (w : UInt16) : Decoded :=
  ⟨⟨dst, o.source⟩, o.mode pcRel, .none, (o.word? w).getD 0⟩

theorem run_decode_tail {dst : UInt8} {pcRel : AddressMode} (hd : dst < 16)
    (hp : pcRel.hasPayload = true) (h : Ahead (o.tail dst pcRel w) c) :
    decode.run c = .ok (decodedOf o dst pcRel w) (c.past (o.tail dst pcRel w).length) := by
  rw [o.length_tail hp]
  exact run_decode hd o.source_lt (o.hasPayload_mode hp w) h

/-! ### Jumps -/

theorem run_indirect {d : Decoded} (hs : d.descriptor.src = r.index) (c : Cpu) : (indirect d).run c =
    .ok (c.memory.word (c.reg r + d.update.before.toUInt16 + d.payload))
      ((c.moved r d.update.before).moved r d.update.after) := by
  have hreg : (c.moved r d.update.before).reg r = c.reg r + d.update.before.toUInt16 :=
    (reg_setReg c r r _).trans (if_pos rfl)
  have hmemory : (c.moved r d.update.before).memory = c.memory := memory_setReg c r _
  unfold indirect
  rw [hs, EStateM.run_bind, run_stepOperand]
  simp only
  rw [EStateM.run_bind, run_operand, hreg]
  simp only
  rw [EStateM.run_bind, EStateM.run_get]
  simp only
  rw [EStateM.run_bind, run_stepOperand, hmemory]
  rfl

theorem run_indirect_of_none {d : Decoded} (hu : d.update = .none) (hs : d.descriptor.src = r.index)
    (c : Cpu) : (indirect d).run c = .ok (c.memory.word (c.reg r + d.payload)) c := by
  have hzero : c.reg r + UpdateMode.none.before.toUInt16 = c.reg r := UInt16.add_zero _
  have hstay : (c.moved r UpdateMode.none.before).moved r UpdateMode.none.after = c :=
    (moved_zero _ r).trans (moved_zero c r)
  rw [run_indirect hs, hu, hzero, hstay]

/-- The target of a jump is its destination. -/
theorem run_target (o : Operand) (dst : UInt8) (w : UInt16) (c : Cpu) :
    (target (decodedOf o dst .regDirectAddition w)).run c = .ok (o.destination c w) c := by
  cases o with
  | immediate v => rfl
  | memory v => rfl
  | pcRelative name => rfl
  | register r => exact run_operand r c
  | indirect r =>
    have hrun := run_indirect_of_none (d := decodedOf (.indirect r) dst .regDirectAddition w) rfl rfl c
    have hpayload : c.reg r + (decodedOf (.indirect r) dst .regDirectAddition w).payload = c.reg r :=
      UInt16.add_zero _
    rw [hpayload] at hrun
    exact hrun
  | indexed r v =>
    exact run_indirect_of_none (d := decodedOf (.indexed r v) dst .regDirectAddition w) rfl rfl c

/-- **A jump** goes to its destination if it is taken, and else to the next instruction. -/
theorem run_jump {dst : UInt8} (hd : dst < 16) (h : Ahead (o.tail dst .regDirectAddition w) c)
    (taken : Bool) : (jump taken).run c = .ok ()
      (let next := c.past (o.tail dst .regDirectAddition w).length
      if taken then next.setReg .pc (o.destination next w) else next) := by
  unfold jump
  cases taken with
  | true =>
    rw [if_pos rfl, jumpTaken, EStateM.run_bind, run_decode_tail hd rfl h]
    simp only
    rw [EStateM.run_bind, run_target]
    rfl
  | false =>
    have hmode : c.memory.byte (c.pc + 1) = (o.mode .regDirectAddition).byte .none :=
      h.bytes 1 _ rfl
    rw [if_neg Bool.false_ne_true, jumpSkipped, EStateM.run_bind, EStateM.run_get]
    simp only
    rw [EStateM.run_bind, hmode, run_modes]
    simp only
    rw [← o.length_tail rfl dst w]
    exact run_advanceBy h

/-! ### Loads and stores -/

theorem isPop_decodedOf (o : Operand) (dst : UInt8) (pcRel : AddressMode) (w : UInt16) :
    isPop (decodedOf o dst pcRel w) = false := Bool.and_false _

theorem isPush_decodedOf (o : Operand) (dst : UInt8) (pcRel : AddressMode) (w : UInt16) :
    isPush (decodedOf o dst pcRel w) = false := Bool.and_false _

theorem run_loadCell (dst src : Register) (v : UInt16) (c : Cpu) :
    Does (do
      stepOperand src.index 0
      let a ← operand src.index
      setOperand dst.index ((← get).memory.word (a + v))
      stepOperand src.index 0) c (.ok (c.setReg dst (c.memory.word (c.reg src + v)))) :=
  Does.bind (run_stepOperand_zero _ c) (Does.bind (run_operand src c)
    (Does.bind rfl (Does.bind (run_setOperand dst _ c) (run_stepOperand_zero _ _))))

/-- **A load** sets the register to the word at the location of the operand. -/
theorem does_loadOp {dst : Register} (h : Ahead (o.tail dst.index .regIndirectOffset w) c) :
    Does loadOp c (.ok
      (let next := c.past (o.tail dst.index .regIndirectOffset w).length
      next.setReg dst ((o.location next w).get next))) := by
  refine Does.bind (run_decode_tail dst.index_lt rfl h) ?_
  generalize c.past (o.tail dst.index .regIndirectOffset w).length = next
  simp only [isPop_decodedOf, Bool.false_eq_true, if_false]
  cases o with
  | immediate v => exact run_setOperand dst _ next
  | memory v => exact run_setOperand dst _ next
  | pcRelative name => exact run_loadCell dst .pc w next
  | register r => exact Does.bind (run_operand r next) (run_setOperand dst _ next)
  | indirect r =>
    have hrun := run_loadCell dst r 0 next
    rw [UInt16.add_zero] at hrun
    exact hrun
  | indexed r v => exact run_loadCell dst r _ next

theorem run_storeCell (src : Register) (v a : UInt16) (c : Cpu) :
    Does (do
      stepOperand src.index 0
      let b ← operand src.index
      modify (·.putWord (b + a) v)
      stepOperand src.index 0) c (.ok (c.putWord (c.reg src + a) v)) :=
  Does.bind (run_stepOperand_zero _ c) (Does.bind (run_operand src c)
    (Does.bind (EStateM.run_modify _ c) (run_stepOperand_zero _ _)))

/-- **A store** puts the register at the location of the operand, which may not be a constant. -/
theorem does_storeOp {r : Register} (h : Ahead (o.tail r.index .regIndirectOffset w) c) :
    Does storeOp c
      (let next := c.past (o.tail r.index .regIndirectOffset w).length
      (o.location next w).put next (next.reg r)) := by
  refine Does.bind (run_decode_tail r.index_lt rfl h) ?_
  generalize c.past (o.tail r.index .regIndirectOffset w).length = next
  refine Does.bind (run_operand r next) ?_
  simp only [isPush_decodedOf, Bool.false_eq_true, if_false]
  cases o with
  | immediate v => exact ⟨next, rfl⟩
  | memory v => exact EStateM.run_modify _ next
  | pcRelative name => exact run_storeCell .pc _ w next
  | register src => exact run_setOperand src _ next
  | indirect src =>
    have hrun := run_storeCell src (next.reg r) 0 next
    rw [UInt16.add_zero] at hrun
    exact hrun
  | indexed src v => exact run_storeCell src _ _ next

/-! ### The stack -/

theorem does_push (v : UInt16) (c : Cpu) : Does (push v) c (c.pushed v) := by
  refine Does.bind (EStateM.run_modify _ c) ?_
  refine Does.bind (EStateM.run_get _) ?_
  unfold pushed
  have hsp : (c.setReg .sp (c.sp - 2)).sp = c.sp - 2 := (reg_setReg c .sp .sp _).trans (if_pos rfl)
  have htop : (c.setReg .sp (c.sp - 2)).top = c.top := rfl
  rw [hsp, htop]
  split
  · exact ⟨_, rfl⟩
  · exact rfl

theorem run_pop (c : Cpu) : pop.run c = .ok c.stackTop c.popped := rfl

theorem run_decode_stack {u : UpdateMode} (h : Ahead
    [(Descriptor.mk r.index Register.sp.index).toByte, AddressMode.regIndirect.byte u] c) :
    decode.run c = .ok ⟨⟨r.index, Register.sp.index⟩, .regIndirect, u, 0⟩ (c.past 2) := by
  have hnone : AddressMode.regIndirect.hasPayload = (none : Option UInt16).isSome := rfl
  exact run_decode r.index_lt Register.sp.index_lt hnone h

theorem does_loadOp_pop (h : Ahead
    [(Descriptor.mk r.index Register.sp.index).toByte, AddressMode.regIndirect.byte .postInc] c) :
    Does loadOp c (.ok ((c.past 2).popped.setReg r (c.past 2).stackTop)) :=
  Does.bind (run_decode_stack h) (Does.bind (run_pop _) (run_setOperand r _ _))

theorem does_storeOp_push (h : Ahead
    [(Descriptor.mk r.index Register.sp.index).toByte, AddressMode.regIndirect.byte .preDec] c) :
    Does storeOp c ((c.past 2).pushed ((c.past 2).reg r)) :=
  Does.bind (run_decode_stack h) (Does.bind (run_operand r _) (does_push _ _))

end Cpu
end Sx16
