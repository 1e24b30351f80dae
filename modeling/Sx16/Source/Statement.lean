/-
# Source lines

A line has an optional label and an optional statement, which is a directive or an instruction.

Key definitions: `SourceLine`, `Statement`, `Directive`, `Instruction`, `Operand`.
-/
import Sx16.Isa.Addressing
import Sx16.Isa.Opcode

namespace Sx16

/-- A 16-bit value, written as a number or as a symbol that stands for one. -/
inductive Value where
  | literal (value : UInt16)
  | symbol (name : String)
  deriving DecidableEq

/-- A jump target or a data operand. -/
inductive Operand where
  /-- The value itself. -/
  | immediate (v : Value)
  /-- The word at an address. -/
  | memory (v : Value)
  /-- A symbol, given by its distance from the program counter. -/
  | pcRelative (symbol : String)
  /-- A register's contents. -/
  | register (r : Register)
  /-- The word at the address in a register. -/
  | indirect (r : Register)
  /-- The word at a register's contents plus a value. -/
  | indexed (r : Register) (v : Value)
  deriving DecidableEq

/-- The arguments of an instruction. -/
inductive Arguments where
  | none
  | one (r : Register)
  | two (dst src : Register)
  | jump (target : Operand)
  | data (r : Register) (operand : Operand)
  deriving DecidableEq

/-- A mnemonic with its arguments. -/
structure Instruction where
  mnemonic : Mnemonic
  arguments : Arguments
  deriving DecidableEq

/-- A statement that is no instruction. -/
inductive Directive where
  /-- `.global`: other modules may refer to these symbols. -/
  | exports (names : List String)
  /-- `.extern`: these symbols are to be found in other modules. -/
  | imports (names : List String)
  /-- `.section`: what follows goes into a new section. -/
  | newSection (name : String)
  /-- `.word`: one word for each value. -/
  | words (values : List Value)
  /-- `.ascii`: the bytes of a text. -/
  | ascii (bytes : List UInt8)
  /-- `.skip`: zero bytes. -/
  | skip (count : UInt16)
  /-- `.end`: nothing after this line counts. -/
  | finish
  deriving DecidableEq

/-- What a line asks for. -/
inductive Statement where
  | directive (d : Directive)
  | instruction (i : Instruction)
  deriving DecidableEq

/-- A line of source; without label and statement it is blank or a comment. -/
structure SourceLine where
  label : Option String
  statement : Option Statement
  deriving DecidableEq

end Sx16
