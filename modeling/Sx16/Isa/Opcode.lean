/-
# Operations

`Opcode` is the first byte of an instruction; 24 of the 256 bytes are operations. `Mnemonic` is what
an assembly line names. There are two mnemonics more than operations: `PUSH` and `POP` are a store
and a load through the stack pointer. A mnemonic's `Form` is the shape of its operands.

Key definitions: `Opcode`, `Opcode.ofCode?`, `Mnemonic`, `Mnemonic.opcode`, `Mnemonic.form`.
-/

namespace Sx16

/-- An operation of the processor. -/
inductive Opcode where
  | halt | int | iret | call | ret
  | jmp | jeq | jne | jgt
  | xchg
  | add | sub | mul | div | cmp
  | not | and | or | xor | test
  | shl | shr
  | ldr | str
  deriving DecidableEq

namespace Opcode

/-- The operations in the order of their bytes. -/
def all : List Opcode :=
  [halt, int, iret, call, ret, jmp, jeq, jne, jgt, xchg, add, sub, mul, div, cmp, not, and, or, xor,
    test, shl, shr, ldr, str]

/-- The first byte of an instruction. -/
def code : Opcode → UInt8
  | halt => 0x00
  | int => 0x10
  | iret => 0x20
  | call => 0x30
  | ret => 0x40
  | jmp => 0x50
  | jeq => 0x51
  | jne => 0x52
  | jgt => 0x53
  | xchg => 0x60
  | add => 0x70
  | sub => 0x71
  | mul => 0x72
  | div => 0x73
  | cmp => 0x74
  | not => 0x80
  | and => 0x81
  | or => 0x82
  | xor => 0x83
  | test => 0x84
  | shl => 0x90
  | shr => 0x91
  | ldr => 0xA0
  | str => 0xB0

/-- The operation that a byte starts. -/
def ofCode? (b : UInt8) : Option Opcode :=
  all.find? fun o => o.code == b

/-- The name in reports. -/
def name : Opcode → String
  | halt => "HALT"
  | int => "INT"
  | iret => "IRET"
  | call => "CALL"
  | ret => "RET"
  | jmp => "JMP"
  | jeq => "JEQ"
  | jne => "JNE"
  | jgt => "JGT"
  | xchg => "XCHG"
  | add => "ADD"
  | sub => "SUB"
  | mul => "MUL"
  | div => "DIV"
  | cmp => "CMP"
  | not => "NOT"
  | and => "AND"
  | or => "OR"
  | xor => "XOR"
  | test => "TEST"
  | shl => "SHL"
  | shr => "SHR"
  | ldr => "LDR"
  | str => "STR"

theorem ofCode?_code (o : Opcode) : ofCode? o.code = some o := by
  cases o <;> rfl

theorem code_of_ofCode? {b : UInt8} {o : Opcode} (h : ofCode? b = some o) : o.code = b := by
  simpa using List.find?_some h

end Opcode

/-- The shape of the operands that a mnemonic takes. -/
inductive Form where
  /-- No operand, as in `halt`. -/
  | bare
  /-- One register, as in `not r1`. -/
  | oneReg
  /-- Two registers, as in `add r1, r2`. -/
  | twoReg
  /-- A jump target, as in `jmp target`. -/
  | jump
  /-- A register and a data operand, as in `ldr r1, value`. -/
  | data
  /-- One register moved through the stack, as in `push r1`. -/
  | stack
  deriving DecidableEq

namespace Form

/-- The name of a form. -/
def name : Form → String
  | bare => "Bare"
  | oneReg => "OneReg"
  | twoReg => "TwoReg"
  | jump => "Jump"
  | data => "Data"
  | stack => "Stack"

end Form

/-- An operation as an assembly line names it. -/
inductive Mnemonic where
  | halt | int | iret | call | ret
  | jmp | jeq | jne | jgt
  | push | pop
  | xchg
  | add | sub | mul | div | cmp
  | not | and | or | xor | test
  | shl | shr
  | ldr | str
  deriving DecidableEq

namespace Mnemonic

/-- Every mnemonic. -/
def all : List Mnemonic :=
  [halt, int, iret, call, ret, jmp, jeq, jne, jgt, push, pop, xchg, add, sub, mul, div, cmp, not, and,
    or, xor, test, shl, shr, ldr, str]

/-- The operation that carries a mnemonic out. -/
def opcode : Mnemonic → Opcode
  | halt => .halt
  | int => .int
  | iret => .iret
  | call => .call
  | ret => .ret
  | jmp => .jmp
  | jeq => .jeq
  | jne => .jne
  | jgt => .jgt
  | push => .str
  | pop => .ldr
  | xchg => .xchg
  | add => .add
  | sub => .sub
  | mul => .mul
  | div => .div
  | cmp => .cmp
  | not => .not
  | and => .and
  | or => .or
  | xor => .xor
  | test => .test
  | shl => .shl
  | shr => .shr
  | ldr => .ldr
  | str => .str

/-- The operands that a mnemonic takes. -/
def form : Mnemonic → Form
  | halt | iret | ret => .bare
  | int | not => .oneReg
  | xchg | add | sub | mul | div | cmp | and | or | xor | test | shl | shr => .twoReg
  | call | jmp | jeq | jne | jgt => .jump
  | ldr | str => .data
  | push | pop => .stack

/-- The name in upper case: the operation's, except for the two stack mnemonics. -/
def name : Mnemonic → String
  | push => "PUSH"
  | pop => "POP"
  | m => m.opcode.name

/-- The mnemonic of a name in any mixture of upper and lower case. -/
def ofName? (s : String) : Option Mnemonic :=
  all.find? fun m => m.name == s.map Char.toUpper

theorem ofName?_name (m : Mnemonic) : ofName? m.name = some m := by
  cases m <;> decide +kernel

end Mnemonic

/-- A name that the instruction set does not know. -/
inductive UnknownName where
  | operation (name : String)
  | register (name : String)
  deriving DecidableEq

namespace UnknownName

/-- The text of the complaint. -/
def message : UnknownName → String
  | operation name => "Undefined Op: " ++ name
  | register name => "Unknown reg name: " ++ name

end UnknownName
end Sx16
