/-
# The report of a halted processor

Key definitions: `Cpu.report`.
-/
import Sx16.Processor.State
import Sx16.Text.Lines

namespace Sx16
namespace Cpu

/-- Four registers from a number on. -/
def registerLine (c : Cpu) (first : Nat) : String :=
  "    ".intercalate ((List.range 4).map fun i =>
    "r" ++ Text.decimal (first + i) ++ "=0x" ++
      Text.hexLower 4 ((c.registers[first + i]?).getD 0).toNat)

/-- The status word and the registers after the last instruction. -/
def report (c : Cpu) : String :=
  Text.unlines [
    "------------------------------------------------",
    "Emulated processor executed halt instruction",
    "Emulated processor state: psw=0b" ++ statusBits c.psw,
    c.registerLine 0,
    c.registerLine 4]

end Cpu
end Sx16
