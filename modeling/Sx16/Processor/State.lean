/-
# The processor's state

Registers, status word and memory, the pending interrupt requests, the end of the loaded image, and
whether the processor has halted. Loading an image starts the program at the address that the reset
vector holds.

Key definitions: `Cpu`, `Cpu.reg`, `Cpu.setReg`, `Cpu.load`, `Cpu.request`.
-/
import Sx16.Image.Basic
import Sx16.Isa.Device
import Sx16.Isa.Register
import Sx16.Isa.Status
import Sx16.Processor.Memory

namespace Sx16

/-- The state of the processor and its memory. -/
structure Cpu where
  memory : Memory := Memory.zero
  /-- The general registers, the stack pointer and the program counter, by number. -/
  registers : Vector UInt16 8 := Vector.replicate 8 0
  psw : UInt16 := 0
  /-- Whether an interrupt is requested, by line. -/
  pending : Vector Bool 8 := Vector.replicate 8 false
  /-- The end of the loaded image; the stack may not grow into it. -/
  top : Nat := 0
  halted : Bool := false

/-- The place of a register among the numbered ones; the status word has none. -/
def Register.slot? (r : Register) : Option (Fin 8) :=
  if h : r.index.toNat < 8 then some ⟨r.index.toNat, h⟩ else none

theorem Register.slot?_inj {r r' : Register} (h : r.slot? = r'.slot?) : r = r' := by
  revert h
  cases r <;> cases r' <;> decide

namespace Cpu

/-- The contents of a register. -/
def reg (c : Cpu) (r : Register) : UInt16 :=
  match r.slot? with
  | some i => c.registers[i]
  | none => c.psw

/-- The state with other contents of a register. -/
def setReg (c : Cpu) (r : Register) (v : UInt16) : Cpu :=
  match r.slot? with
  | some i => { c with registers := c.registers.set i v }
  | none => { c with psw := v }

/-- The program counter. -/
def pc (c : Cpu) : UInt16 := c.reg .pc

/-- The stack pointer. -/
def sp (c : Cpu) : UInt16 := c.reg .sp

/-- Whether a flag is set. -/
def flag (c : Cpu) (f : Flag) : Bool := f.isSet c.psw

/-- The state with a flag set or cleared. -/
def setFlag (c : Cpu) (f : Flag) (on : Bool) : Cpu := { c with psw := f.put on c.psw }

/-- The state with another word in memory. -/
def putWord (c : Cpu) (a w : UInt16) : Cpu := { c with memory := c.memory.putWord a w }

/-- The state with consecutive bytes from an address on. -/
def store (c : Cpu) (a : UInt16) : List UInt8 → Cpu
  | [] => c
  | b :: r => store { c with memory := c.memory.putByte a b } (a + 1) r

/-- The state with an interrupt requested. -/
def request (c : Cpu) (line : Line) : Cpu := { c with pending := c.pending.set line true }

/-- The state without the request for an interrupt. -/
def dismiss (c : Cpu) (line : Line) : Cpu := { c with pending := c.pending.set line false }

/-- Whether an interrupt is requested. -/
def isPending (c : Cpu) (line : Line) : Bool := c.pending[line]

/-- The state at the start of the program in an image. -/
def load (image : Image) : Cpu :=
  let memory := image.toList.foldl (fun m p => m.putByte p.1 p.2) Memory.zero
  ({ memory, top := image.top } : Cpu).setReg .pc (memory.word (vector Line.reset))

theorem reg_setReg (c : Cpu) (r r' : Register) (v : UInt16) :
    (c.setReg r v).reg r' = if r = r' then v else c.reg r' := by
  by_cases hr : r = r'
  · subst hr
    rw [if_pos rfl, setReg, reg]
    cases h : r.slot? with
    | none => rfl
    | some i => exact Vector.getElem_set_self i.isLt
  · have hs : r.slot? ≠ r'.slot? := fun h => hr (Register.slot?_inj h)
    rw [if_neg hr, setReg, reg, reg]
    cases h : r.slot? with
    | none =>
      cases h' : r'.slot? with
      | none => exact absurd (h.trans h'.symm) hs
      | some j => rfl
    | some i =>
      cases h' : r'.slot? with
      | none => rfl
      | some j =>
        have hij : i.val ≠ j.val := fun e => hs (by rw [h, h', Fin.ext e])
        exact Vector.getElem_set_ne i.isLt j.isLt hij

end Cpu
end Sx16
