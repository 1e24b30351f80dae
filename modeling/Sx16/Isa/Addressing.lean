/-
# Operand bytes

A jump or data instruction has a descriptor byte and a mode byte after its operation, and a 16-bit
payload after these if the address mode has one. The descriptor holds two register numbers, the
destination in the high nibble and the source in the low one. The mode byte holds the update mode in
the high nibble and the address mode in the low one.

Key definitions: `AddressMode`, `UpdateMode`, `AddressMode.byte`, `Descriptor`.
-/
import Sx16.Isa.Register

namespace Sx16

/-- The high and the low nibble of a byte. -/
def nibbles (b : UInt8) : UInt8 × UInt8 :=
  (b >>> 4, b &&& 0xF)

/-- How an operand is found. -/
inductive AddressMode where
  | immediate | regDirect | regIndirect | regIndirectOffset | memory | regDirectAddition
  deriving DecidableEq

namespace AddressMode

/-- Every address mode, by code. -/
def all : List AddressMode :=
  [immediate, regDirect, regIndirect, regIndirectOffset, memory, regDirectAddition]

/-- The low nibble of the mode byte. -/
def code : AddressMode → UInt8
  | immediate => 0
  | regDirect => 1
  | regIndirect => 2
  | regIndirectOffset => 3
  | memory => 4
  | regDirectAddition => 5

/-- The address mode of a nibble. -/
def ofCode? (b : UInt8) : Option AddressMode :=
  all.find? fun m => m.code == b

/-- The name of an address mode. -/
def name : AddressMode → String
  | immediate => "Immediate"
  | regDirect => "RegDirect"
  | regIndirect => "RegIndirect"
  | regIndirectOffset => "RegIndirectOffset"
  | memory => "Memory"
  | regDirectAddition => "RegDirectAddition"

/-- Whether a 16-bit payload follows the mode byte. -/
def hasPayload : AddressMode → Bool
  | regDirect | regIndirect => false
  | immediate | regIndirectOffset | memory | regDirectAddition => true

/-- The bytes of payload after the mode byte. -/
def payloadSize (m : AddressMode) : Nat :=
  if m.hasPayload then 2 else 0

theorem ofCode?_code (m : AddressMode) : ofCode? m.code = some m := by
  cases m <;> rfl

theorem code_of_ofCode? {b : UInt8} {m : AddressMode} (h : ofCode? b = some m) : m.code = b := by
  simpa using List.find?_some h

end AddressMode

/-- The change of the address register around an access. -/
inductive UpdateMode where
  | none | preDec | preInc | postDec | postInc
  deriving DecidableEq

namespace UpdateMode

/-- Every update mode, by code. -/
def all : List UpdateMode :=
  [none, preDec, preInc, postDec, postInc]

/-- The high nibble of the mode byte. -/
def code : UpdateMode → UInt8
  | none => 0
  | preDec => 1
  | preInc => 2
  | postDec => 3
  | postInc => 4

/-- The update mode of a nibble. -/
def ofCode? (b : UInt8) : Option UpdateMode :=
  all.find? fun m => m.code == b

/-- The name of an update mode. -/
def name : UpdateMode → String
  | none => "None"
  | preDec => "PreDec"
  | preInc => "PreInc"
  | postDec => "PostDec"
  | postInc => "PostInc"

/-- The step of the register before the access. -/
def before : UpdateMode → Int16
  | preDec => -2
  | preInc => 2
  | none | postDec | postInc => 0

/-- The step of the register after the access. -/
def after : UpdateMode → Int16
  | postDec => -2
  | postInc => 2
  | none | preDec | preInc => 0

theorem ofCode?_code (m : UpdateMode) : ofCode? m.code = some m := by
  cases m <;> rfl

theorem code_of_ofCode? {b : UInt8} {m : UpdateMode} (h : ofCode? b = some m) : m.code = b := by
  simpa using List.find?_some h

end UpdateMode

/-- The mode byte of an address mode and an update mode. -/
def AddressMode.byte (m : AddressMode) (u : UpdateMode) : UInt8 :=
  u.code <<< 4 ||| m.code

theorem nibbles_byte (m : AddressMode) (u : UpdateMode) : nibbles (m.byte u) = (u.code, m.code) := by
  cases m <;> cases u <;> rfl

/-- The two register numbers of a descriptor byte. -/
structure Descriptor where
  dst : UInt8
  src : UInt8
  deriving DecidableEq

namespace Descriptor

/-- The descriptor of a destination alone. -/
def dstOnly (dst : UInt8) : Descriptor :=
  ⟨dst, Register.noIndex⟩

/-- The register numbers in a byte. -/
def ofByte (b : UInt8) : Descriptor :=
  ⟨(nibbles b).1, (nibbles b).2⟩

/-- The byte of the low nibbles of both numbers. -/
def toByte (d : Descriptor) : UInt8 :=
  (d.dst &&& 0xF) <<< 4 ||| (d.src &&& 0xF)

end Descriptor
end Sx16
