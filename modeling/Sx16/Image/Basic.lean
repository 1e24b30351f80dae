/-
# Memory images

An image gives a byte to some of the 65536 addresses. `place` writes consecutive bytes from a start
address and refuses to run past the last address; `top` is the end of the last aligned row of eight
addresses that has a byte.

Key definitions: `Image`, `Image.get?`, `Image.place`, `Image.top`.
-/
import Sx16.FormatError
import Std.Data.ExtTreeMap

namespace Sx16

/-- The bytes that a program puts into memory, by address. -/
structure Image where
  cells : Std.ExtTreeMap UInt16 UInt8 compare

namespace Image

/-- The image without a byte. -/
def empty : Image := ⟨∅⟩

/-- The byte at an address. -/
def get? (m : Image) (a : UInt16) : Option UInt8 := m.cells[a]?

/-- The addresses with their bytes, in the order of addresses. -/
def toList (m : Image) : List (UInt16 × UInt8) := m.cells.toList

/-- The number of addresses that have a byte. -/
def size (m : Image) : Nat := m.cells.size

/-- The image with consecutive bytes from an address on. -/
def store (m : Image) (a : UInt16) : List UInt8 → Image
  | [] => m
  | b :: r => store ⟨m.cells.insert a b⟩ (a + 1) r

/-- The image with consecutive bytes from a start address on, if all of them have an address. -/
def place (m : Image) (start : UInt16) (bs : List UInt8) : Except FormatError Image :=
  let stop := start.toNat + bs.length
  if stop > 0x10000 then .error (.addressOverflow (stop - 1)) else .ok (m.store start bs)

/-- The number of addresses in a row. -/
def rowSize : Nat := 8

/-- The row of an address. -/
def rowOf (a : UInt16) : Nat := a.toNat / rowSize

/-- The end of the last row that has a byte. -/
def top (m : Image) : Nat :=
  match m.cells.maxKey? with
  | some a => (rowOf a + 1) * rowSize
  | none => 0

end Image
end Sx16
