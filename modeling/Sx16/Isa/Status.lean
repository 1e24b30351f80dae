/-
# The status word

Seven bits of the status word have a meaning: four results of an operation and three interrupt masks.

Key definitions: `Flag`, `Flag.mask`, `Flag.isSet`, `Flag.put`.
-/
import Sx16.Text.Numeral

namespace Sx16

/-- A bit of the status word with a meaning. -/
inductive Flag where
  | zero | overflow | carry | negative | timerMask | terminalMask | interruptMask
  deriving DecidableEq

namespace Flag

/-- The flags from the lowest bit up. -/
def all : List Flag :=
  [zero, overflow, carry, negative, timerMask, terminalMask, interruptMask]

/-- The short name of a flag. -/
def name : Flag → String
  | zero => "Z"
  | overflow => "O"
  | carry => "C"
  | negative => "N"
  | timerMask => "Tr"
  | terminalMask => "Tl"
  | interruptMask => "I"

/-- The word with only this flag's bit. -/
def mask : Flag → UInt16
  | zero => 0x0001
  | overflow => 0x0002
  | carry => 0x0004
  | negative => 0x0008
  | timerMask => 0x2000
  | terminalMask => 0x4000
  | interruptMask => 0x8000

/-- The flag of a short name. -/
def ofName? (s : String) : Option Flag :=
  all.find? fun f => f.name == s

/-- Whether the flag is set in a status word. -/
def isSet (f : Flag) (psw : UInt16) : Bool :=
  psw &&& f.mask != 0

/-- The status word with the flag set or cleared. -/
def put (f : Flag) (on : Bool) (psw : UInt16) : UInt16 :=
  if on then psw ||| f.mask else psw &&& ~~~f.mask

end Flag

/-- The sixteen bits of a status word, most significant first. -/
def statusBits (psw : UInt16) : String :=
  Text.binary 16 psw.toNat

end Sx16
