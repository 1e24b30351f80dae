/-
# Devices and interrupt lines

Three words of memory belong to devices, and eight interrupt lines have their handler addresses in
the first sixteen bytes of memory.

Key definitions: `Line`, `vector`, `timerPeriod`.
-/

namespace Sx16

/-- The word that the terminal prints when it is not zero, and then clears. -/
def terminalOut : UInt16 := 0xFF00

/-- The word that receives every typed character. -/
def terminalIn : UInt16 := 0xFF02

/-- The word whose low three bits select the timer's period. -/
def timerConfig : UInt16 := 0xFF10

/-- An interrupt line. -/
abbrev Line := Fin 8

namespace Line

/-- The line whose handler starts a program; it is never requested. -/
def reset : Line := 0

/-- The timer's line. -/
def timer : Line := 2

/-- The terminal's line. -/
def terminal : Line := 3

/-- The line of a number: numbers past the last line start again. -/
def ofNat (n : Nat) : Line :=
  Fin.ofNat 8 n

/-- The line of a byte. -/
def ofByte (b : UInt8) : Line :=
  ofNat b.toNat

end Line

/-- The address of a line's handler address. -/
def vector (line : Line) : UInt16 :=
  UInt16.ofNat (line.val * 2)

/-- The timer's period in milliseconds. -/
def timerPeriod (config : UInt16) : Nat :=
  match (config &&& 7).toNat with
  | 0 => 500
  | 1 => 1000
  | 2 => 1500
  | 3 => 2000
  | 4 => 5000
  | 5 => 10000
  | 6 => 30000
  | _ => 60000

end Sx16
