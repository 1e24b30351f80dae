/-
# The text of a memory image

One line for every row that has a byte: the row's address and a colon, then the bytes from the start
of the row up to its last one, with zeros for those that are missing before it. The printer goes
through the bytes once and keeps the row of its line and the next address there. A reader takes an
address, a colon and any number of bytes from each line that is not blank.

Key definitions: `Image.pieces`, `Image.text`, `Image.ofText`.
-/
import Sx16.Image.Basic
import Sx16.Text.Blank
import Sx16.Text.Lines

namespace Sx16
namespace Image

/-- A byte in a line. -/
def byteText (b : UInt8) : String := " " ++ Text.hex 2 b.toNat

/-- Zeros for the missing bytes from one address up to another. -/
def zeros (start stop : Nat) : List String :=
  List.replicate (stop - start) " 00"

/-- The end of the line that was begun, if there is one. -/
def endOfLine (line : Option Nat) : List String :=
  if line.isSome then ["\n"] else []

/-- What is printed for bytes in the order of their addresses, in a line that begins at the address
`line` and goes on at `next`. -/
def pieces (line : Option Nat) (next : Nat) : List (UInt16 × UInt8) → List String
  | [] => endOfLine line
  | (a, b) :: r =>
    let base := rowOf a * rowSize
    if line = some base then
      zeros next a.toNat ++ byteText b :: pieces line (max next a.toNat + 1) r
    else
      endOfLine line ++ Text.hex 4 base :: ":" :: zeros base a.toNat ++
        byteText b :: pieces (some base) (max base a.toNat + 1) r

/-- The text of an image. -/
def text (m : Image) : String :=
  String.join (pieces none 0 m.toList)

/-- The start address and the bytes of a line that is not blank. -/
def readRow (cs : List Char) : Option (UInt16 × List UInt8) :=
  match cs.dropWhile (· != ':') with
  | [] => none
  | _ :: data => do
    let start ← Text.readWord 16 (Text.trim (cs.takeWhile (· != ':')))
    let bytes ← (Text.words data).mapM (Text.readByte 16)
    some (start, bytes)

/-- The image with the bytes of more lines. -/
def readRows : Image → List Text.NumberedLine → Except FormatError Image
  | m, [] => .ok m
  | m, (n, raw) :: r =>
    let cs := Text.trim raw.toList
    if cs.isEmpty then readRows m r
    else
      match readRow cs with
      | none => .error (.malformed .imageLine n raw)
      | some (start, bytes) =>
        match m.place start bytes with
        | .error e => .error e
        | .ok m' => readRows m' r

/-- The image of a text. -/
def ofText (s : String) : Except FormatError Image :=
  readRows empty (Text.numberedLines s)

end Image
end Sx16
