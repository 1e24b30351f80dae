/-
# Faults of the processor

Key definitions: `Fault`, `Fault.message`.
-/
import Sx16.Text.Numeral

namespace Sx16

/-- Why an instruction cannot be carried out although its operation is known. -/
inductive Misuse where
  | registerIndex | addressMode | updateMode | storeImmediate | divisionByZero | negativeShift
  deriving DecidableEq

/-- The text of the reason. -/
def Misuse.reason : Misuse → String
  | registerIndex => "invalid register index"
  | addressMode => "unknown address mode"
  | updateMode => "unknown update mode"
  | storeImmediate => "str with immediate address mode"
  | divisionByZero => "division by zero"
  | negativeShift => "negative shift operand"

/-- Why the processor cannot go on. -/
inductive Fault where
  | pcOutOfBounds
  | stackOverflow
  | illegalOpcode (code : UInt8) (address : UInt16)
  | illegalInstruction (misuse : Misuse)
  deriving DecidableEq

/-- The text of the complaint. -/
def Fault.message : Fault → String
  | pcOutOfBounds => "Program counter has gotten out of bounds!"
  | stackOverflow => "Program has stopped because stack overflow was about to happen."
  | illegalOpcode code address =>
    "Emulator has detected an unknown operation code 0x" ++ Text.hex 2 code.toNat ++ " at 0x" ++
      Text.hex 4 address.toNat ++ ". Emulation stopped."
  | illegalInstruction misuse =>
    "Illegal instruction was about to be executed. Reason: \"" ++ misuse.reason ++ "\"."

end Sx16
