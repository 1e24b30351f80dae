/-
# Registers

Six general registers, the stack pointer, the program counter and the status word. The first eight
have the numbers 0 to 7; the status word is number 8. A descriptor nibble can hold numbers up to 15,
of which 9 to 14 name nothing and 15 stands for "no register".

Key definitions: `Register`, `Register.index`, `Register.ofIndex?`, `Register.ofName?`.
-/

namespace Sx16

/-- A register that an instruction can name. -/
inductive Register where
  | r0 | r1 | r2 | r3 | r4 | r5 | sp | pc | psw
  deriving DecidableEq

namespace Register

/-- The registers by number. -/
def all : List Register :=
  [r0, r1, r2, r3, r4, r5, sp, pc, psw]

/-- The number in a descriptor nibble. -/
def index : Register → UInt8
  | r0 => 0
  | r1 => 1
  | r2 => 2
  | r3 => 3
  | r4 => 4
  | r5 => 5
  | sp => 6
  | pc => 7
  | psw => 8

/-- The register with a number. -/
def ofIndex? (i : UInt8) : Option Register :=
  all.find? fun r => r.index == i

/-- The name that is written for a register. -/
def name : Register → String
  | r0 => "r0"
  | r1 => "r1"
  | r2 => "r2"
  | r3 => "r3"
  | r4 => "r4"
  | r5 => "r5"
  | sp => "sp"
  | pc => "pc"
  | psw => "psw"

/-- The second names of the stack pointer and the program counter. -/
def aliases : List (String × Register) :=
  [("r6", sp), ("r7", pc)]

/-- The register of a name or a second name; case counts. -/
def ofName? (s : String) : Option Register :=
  (all.find? fun r => r.name == s).or (aliases.lookup s)

/-- The nibble of an absent register. -/
def noIndex : UInt8 := 15

theorem ofIndex?_index (r : Register) : ofIndex? r.index = some r := by
  cases r <;> rfl

theorem ofName?_name (r : Register) : ofName? r.name = some r := by
  cases r <;> rfl

end Register
end Sx16
