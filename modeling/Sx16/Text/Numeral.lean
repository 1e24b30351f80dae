/-
# Numbers as text

Reading: `readNat` takes a non-empty run of digits of a base, `readBelow` also allows one leading
plus sign and refuses values from a limit on, and `readSigned` allows either sign. There are no
blanks, no separators and no digits beyond ASCII. Writing: `decimal` and `hex`, the latter in upper
case with a least width.

Key definitions: `Text.readBelow`, `Text.readPrefixed`, `Text.hex`.
-/

namespace Sx16
namespace Text

/-- The value of a hexadecimal digit of either case. -/
def hexValue? (c : Char) : Option Nat :=
  if '0' ≤ c ∧ c ≤ '9' then some (c.toNat - 48)
  else if 'a' ≤ c ∧ c ≤ 'f' then some (c.toNat - 87)
  else if 'A' ≤ c ∧ c ≤ 'F' then some (c.toNat - 55)
  else none

/-- The value of a digit in a base up to sixteen. -/
def digitValue? (base : Nat) (c : Char) : Option Nat :=
  (hexValue? c).filter (· < base)

/-- The number that a run of digits adds to `n`, most significant digit first. -/
def readDigits (base : Nat) : Nat → List Char → Option Nat
  | n, [] => some n
  | n, c :: r =>
    match digitValue? base c with
    | some d => readDigits base (n * base + d) r
    | none => none

/-- A non-empty run of digits. -/
def readNat (base : Nat) : List Char → Option Nat
  | [] => none
  | cs => readDigits base 0 cs

/-- A number below `limit`, with at most one leading plus sign. -/
def readBelow (base limit : Nat) : List Char → Option Nat
  | '+' :: r => (readNat base r).filter (· < limit)
  | cs => (readNat base cs).filter (· < limit)

/-- A decimal number with at most one leading sign. -/
def readSigned : List Char → Option Int
  | '-' :: r => (readNat 10 r).map fun n => -(n : Int)
  | '+' :: r => (readNat 10 r).map Int.ofNat
  | cs => (readNat 10 cs).map Int.ofNat

/-- An eight-bit number. -/
def readByte (base : Nat) (cs : List Char) : Option UInt8 :=
  (readBelow base 0x100 cs).map UInt8.ofNat

/-- A sixteen-bit number. -/
def readWord (base : Nat) (cs : List Char) : Option UInt16 :=
  (readBelow base 0x10000 cs).map UInt16.ofNat

/-- A 32-bit number in decimal, or in base sixteen, eight or two after `0x`, `0o` or `0b`. -/
def readPrefixed : List Char → Option UInt32
  | '0' :: 'x' :: r => (readBelow 16 0x100000000 r).map UInt32.ofNat
  | '0' :: 'X' :: r => (readBelow 16 0x100000000 r).map UInt32.ofNat
  | '0' :: 'o' :: r => (readBelow 8 0x100000000 r).map UInt32.ofNat
  | '0' :: 'b' :: r => (readBelow 2 0x100000000 r).map UInt32.ofNat
  | cs => (readBelow 10 0x100000000 cs).map UInt32.ofNat

/-- A number in decimal digits. -/
def decimal (n : Nat) : String :=
  String.ofList (Nat.toDigits 10 n)

/-- A number in decimal digits, with zeros in front up to `width` digits. -/
def decimalPadded (width n : Nat) : String :=
  String.ofList ((Nat.toDigits 10 n).leftpad width '0')

/-- A number in upper-case hexadecimal digits, with zeros in front up to `width` digits. -/
def hex (width n : Nat) : String :=
  String.ofList (((Nat.toDigits 16 n).map Char.toUpper).leftpad width '0')

/-- A number in lower-case hexadecimal digits, with zeros in front up to `width` digits. -/
def hexLower (width n : Nat) : String :=
  String.ofList ((Nat.toDigits 16 n).leftpad width '0')

/-- A number in binary digits, with zeros in front up to `width` digits. -/
def binary (width n : Nat) : String :=
  String.ofList ((Nat.toDigits 2 n).leftpad width '0')

/-- Blanks in front of a text, up to `width` characters. -/
def alignRight (width : Nat) (s : String) : String :=
  String.ofList (s.toList.leftpad width ' ')

/-- Blanks after a text, up to `width` characters. -/
def alignLeft (width : Nat) (s : String) : String :=
  String.ofList (s.toList.rightpad width ' ')

end Text
end Sx16
