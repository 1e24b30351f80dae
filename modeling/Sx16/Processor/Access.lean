/-
# Fetching, the stack and registers by number

The smallest actions of an instruction. The program counter may not pass the last address. A push
moves the stack pointer down first and refuses to write where the image lies; a pop reads and moves
the stack pointer up. An action that fails keeps the changes it made before.

Key definitions: `Exec`, `Cpu.fetch`, `Cpu.push`, `Cpu.pop`, `Cpu.operand`, `Cpu.setOperand`.
-/
import Sx16.Processor.Fault
import Sx16.Processor.State

namespace Sx16

/-- An action on the processor's state that may fail half-way. -/
abbrev Exec := EStateM Fault Cpu

namespace Cpu

/-- Moves the program counter to the next address, if there is one. -/
def advance : Exec Unit := do
  let pc := (← get).pc + 1
  modify (·.setReg .pc pc)
  if pc = 0 then throw .pcOutOfBounds

/-- Moves the program counter by a number of addresses, one after the other. -/
def advanceBy : Nat → Exec Unit
  | 0 => pure ()
  | n + 1 => do
    advance
    advanceBy n

/-- The byte at the program counter, which moves on. -/
def fetch : Exec UInt8 := do
  let c ← get
  advance
  return c.memory.byte c.pc

/-- The word at the program counter, which moves on. -/
def fetchWord : Exec UInt16 := do
  let lo ← fetch
  let hi ← fetch
  return Word.ofBytes lo hi

/-- Puts a word on the stack. -/
def push (v : UInt16) : Exec Unit := do
  modify fun c => c.setReg .sp (c.sp - 2)
  let c ← get
  if c.sp.toNat ≤ c.top then throw .stackOverflow
  modify (·.putWord c.sp v)

/-- Takes a word off the stack. -/
def pop : Exec UInt16 := do
  let c ← get
  set (c.setReg .sp (c.sp + 2))
  return c.memory.word c.sp

/-- The register with a number. -/
def named (i : UInt8) : Exec Register :=
  match Register.ofIndex? i with
  | some r => return r
  | none => throw (.illegalInstruction .registerIndex)

/-- The contents of the register with a number. -/
def operand (i : UInt8) : Exec UInt16 := do
  let r ← named i
  return (← get).reg r

/-- Changes the contents of the register with a number. -/
def setOperand (i : UInt8) (v : UInt16) : Exec Unit := do
  let r ← named i
  modify (·.setReg r v)

/-- Adds to the register with a number; a step of zero asks for no register. -/
def stepOperand (i : UInt8) (delta : Int16) : Exec Unit := do
  if delta != 0 then
    let v ← operand i
    setOperand i (v + delta.toUInt16)

end Cpu
end Sx16
