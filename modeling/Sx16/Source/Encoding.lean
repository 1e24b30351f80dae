/-
# The bytes of an instruction

An instruction is its operation's byte, then for any argument a descriptor, then for an operand a
mode byte and perhaps a payload of two bytes. A symbol in an operand leaves a placeholder in the
payload and a fixup that says where. The placeholder of a symbol relative to the program counter is
-2, since the counter stands two bytes past the payload's start when it is added.

Key definitions: `Instruction.encode`, `Encoded`, `Fixup`.
-/
import Sx16.Object.Relocation
import Sx16.Source.Statement
import Sx16.Word

namespace Sx16

/-- A placeholder for a symbol inside an instruction. -/
structure Fixup where
  /-- The placeholder's distance from the start of the instruction. -/
  pos : UInt16
  symbol : String
  kind : RelocationKind
  deriving DecidableEq

/-- The bytes of an instruction, with the placeholder they hold. -/
structure Encoded where
  bytes : List UInt8
  fixup : Option Fixup
  deriving DecidableEq

/-- The placeholder of an operand relative to the program counter. -/
def pcRelativePlaceholder : UInt16 := 0xFFFE

namespace Value

/-- The word that is written for a value before its symbol is known. -/
def placeholder : Value → UInt16
  | literal v => v
  | symbol _ => 0

/-- The symbol of a value. -/
def symbol? : Value → Option String
  | literal _ => none
  | symbol name => some name

end Value

namespace Operand

/-- The register number in the source nibble. -/
def source : Operand → UInt8
  | immediate _ | memory _ => Register.noIndex
  | pcRelative _ => Register.pc.index
  | register r | indirect r | indexed r _ => r.index

/-- The address mode; jumps and data transfers reach a symbol relative to the program counter in
modes of their own. -/
def mode (pcRel : AddressMode) : Operand → AddressMode
  | immediate _ => .immediate
  | memory _ => .memory
  | pcRelative _ => pcRel
  | register _ => .regDirect
  | indirect _ => .regIndirect
  | indexed _ _ => .regIndirectOffset

/-- The word after the mode byte. -/
def payload? : Operand → Option UInt16
  | immediate v | memory v | indexed _ v => some v.placeholder
  | pcRelative _ => some pcRelativePlaceholder
  | register _ | indirect _ => none

/-- The symbol in the payload, and how it is filled in. -/
def reference? : Operand → Option (String × RelocationKind)
  | immediate v | memory v | indexed _ v => v.symbol?.map fun name => (name, .symbolWord)
  | pcRelative name => some (name, .pcRelative)
  | register _ | indirect _ => none

/-- The bytes of an operation with an operand. -/
def encode (o : Operand) (op dst : UInt8) (pcRel : AddressMode) : Encoded where
  bytes := [op, (Descriptor.mk dst o.source).toByte, (o.mode pcRel).byte .none] ++
    (o.payload?.map Word.bytes).getD []
  fixup := o.reference?.map fun p => ⟨3, p.1, p.2⟩

end Operand

namespace Instruction

/-- The bytes of an instruction. -/
def encode (i : Instruction) : Encoded :=
  let op := i.mnemonic.opcode.code
  match i.arguments, i.mnemonic with
  | .one r, .push =>
    ⟨[op, (Descriptor.mk r.index Register.sp.index).toByte, AddressMode.regIndirect.byte .preDec], none⟩
  | .one r, .pop =>
    ⟨[op, (Descriptor.mk r.index Register.sp.index).toByte, AddressMode.regIndirect.byte .postInc], none⟩
  | .none, _ => ⟨[op], none⟩
  | .one r, _ => ⟨[op, (Descriptor.dstOnly r.index).toByte], none⟩
  | .two dst src, _ => ⟨[op, (Descriptor.mk dst.index src.index).toByte], none⟩
  | .jump target, _ => target.encode op Register.noIndex .regDirectAddition
  | .data r operand, _ => operand.encode op r.index .regIndirectOffset

end Instruction
end Sx16
