/-
# Taking interrupts

Of the requested lines that are not masked, the lowest is taken: program counter and status word are
pushed, further interrupts are masked, and the program goes on at the line's handler. Line 0 is never
taken. The flag `I` masks every line, and the timer and the terminal have flags of their own.

Key definitions: `Cpu.isMasked`, `Cpu.eligible?`, `Cpu.checkInterrupts`.
-/
import Sx16.Processor.Access

namespace Sx16
namespace Cpu

/-- Whether a line is kept from being taken. -/
def isMasked (c : Cpu) (line : Line) : Bool :=
  c.flag .interruptMask || (line == Line.timer && c.flag .timerMask) ||
    (line == Line.terminal && c.flag .terminalMask)

/-- The lowest requested line that is not masked. -/
def eligible? (c : Cpu) : Option Line :=
  (List.finRange 8).find? fun line => line != Line.reset && c.isPending line && !c.isMasked line

/-- Enters the handler of a line. -/
def enter (line : Line) : Exec Unit := do
  push (← get).pc
  push (← get).psw
  modify fun c =>
    let c := c.setFlag .interruptMask true
    (c.setReg .pc (c.memory.word (vector line))).dismiss line

/-- Takes a requested interrupt if one can be taken, and gives its line. -/
def checkInterrupts : Exec (Option Line) := do
  match (← get).eligible? with
  | none => return none
  | some line => do
    enter line
    return some line

end Cpu
end Sx16
