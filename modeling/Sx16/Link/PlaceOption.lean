/-
# Asking for a place

The option that fixes a section is its name, an at sign, and an address in decimal, or in hexadecimal
after `0x`.

Key definitions: `readPlace`.
-/
import Sx16.Link.Error

namespace Sx16

/-- An address in decimal, or in hexadecimal after `0x`. -/
def readAddress : List Char → Option UInt16
  | '0' :: 'x' :: r => Text.readWord 16 r
  | '0' :: 'X' :: r => Text.readWord 16 r
  | cs => Text.readWord 10 cs

/-- The section and the address of an option. -/
def readPlace (argument : String) : Except LinkError (String × UInt16) :=
  let cs := argument.toList
  let name := cs.takeWhile (· != '@')
  match cs.dropWhile (· != '@') with
  | [] => .error (.invalidPlace argument)
  | _ :: address =>
    match readAddress address with
    | none => .error (.invalidPlace argument)
    | some a =>
      if name.isEmpty then .error (.invalidPlace argument) else .ok (String.ofList name, a)

end Sx16
