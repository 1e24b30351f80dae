/-
# The grammar of a source line

Every reader takes the tokens that are left and gives what it read and the tokens after it. A line is
read from left to right and the first fault is the one that counts, so a literal that is too big is
reported even where a later token is wrong as well.

Key definitions: `LineFault`, `SourceLine.ofTokens`, `SourceLine.ofText`.
-/
import Sx16.Source.Statement
import Sx16.Source.Token

namespace Sx16

/-- Why a text is no source line. -/
inductive LineFault where
  | unknownOperation (name : String)
  | syntaxError
  | literalTooBig
  deriving DecidableEq

/-- A number as a 16-bit value. -/
def word (n : UInt32) : Except LineFault UInt16 :=
  if n.toNat < 0x10000 then .ok (UInt16.ofNat n.toNat) else .error .literalTooBig

namespace Value

/-- A number or a symbol. -/
def read : List Token → Except LineFault (Value × List Token)
  | .number n :: r => do return (.literal (← word n), r)
  | .ident name :: r => .ok (.symbol name, r)
  | _ => .error .syntaxError

/-- One value or more, between commas. -/
def readList : List Token → Except LineFault (List Value × List Token)
  | [] => .error .syntaxError
  | t :: r => do
    let (v, _) ← read [t]
    match r with
    | .comma :: r' => do
      let (vs, r'') ← readList r'
      return (v :: vs, r'')
    | _ => return ([v], r)

end Value

/-- One name or more, between commas. -/
def readNames : List Token → Except LineFault (List String × List Token)
  | .ident name :: .comma :: r => do
    let (names, r') ← readNames r
    return (name :: names, r')
  | .ident name :: r => .ok ([name], r)
  | _ => .error .syntaxError

namespace Directive

/-- A directive after its period. -/
def read : List Token → Except LineFault (Directive × List Token)
  | .ident "global" :: r => do
    let (names, r') ← readNames r
    return (.exports names, r')
  | .ident "extern" :: r => do
    let (names, r') ← readNames r
    return (.imports names, r')
  | .ident "section" :: .ident name :: r => .ok (.newSection name, r)
  | .ident "word" :: r => do
    let (values, r') ← Value.readList r
    return (.words values, r')
  | .ident "ascii" :: .text (b :: bs) :: r => .ok (.ascii (b :: bs), r)
  | .ident "skip" :: .number n :: r => do return (.skip (← word n), r)
  | .ident "end" :: r => .ok (.finish, r)
  | _ => .error .syntaxError

end Directive

namespace Register

/-- A register's name. -/
def read : List Token → Except LineFault (Register × List Token)
  | .ident name :: r =>
    match ofName? name with
    | some reg => .ok (reg, r)
    | none => .error .syntaxError
  | _ => .error .syntaxError

end Register

namespace Operand

/-- A name in the place of an operand: a register, or else the word at a symbol. -/
def ofName (name : String) : Operand :=
  match Register.ofName? name with
  | some reg => .register reg
  | none => .memory (.symbol name)

/-- What stands in brackets, after the opening one: a register, and perhaps a value to add. -/
def readBracket (ts : List Token) : Except LineFault (Operand × List Token) := do
  let (reg, afterReg) ← Register.read ts
  match afterReg with
  | .rbracket :: r => return (.indirect reg, r)
  | .plus :: r => do
    let (v, afterValue) ← Value.read r
    match afterValue with
    | .rbracket :: r' => return (.indexed reg v, r')
    | _ => .error .syntaxError
  | _ => .error .syntaxError

/-- The operand of a load or store. -/
def readData : List Token → Except LineFault (Operand × List Token)
  | .dollar :: r => do
    let (v, r') ← Value.read r
    return (.immediate v, r')
  | .percent :: .ident name :: r => .ok (.pcRelative name, r)
  | .lbracket :: r => readBracket r
  | .number n :: r => do return (.memory (.literal (← word n)), r)
  | .ident name :: r => .ok (ofName name, r)
  | _ => .error .syntaxError

/-- The target of a jump. -/
def readTarget : List Token → Except LineFault (Operand × List Token)
  | .star :: .lbracket :: r => readBracket r
  | .star :: .number n :: r => do return (.memory (.literal (← word n)), r)
  | .star :: .ident name :: r => .ok (ofName name, r)
  | .percent :: .ident name :: r => .ok (.pcRelative name, r)
  | .number n :: r => do return (.immediate (.literal (← word n)), r)
  | .ident name :: r => .ok (.immediate (.symbol name), r)
  | _ => .error .syntaxError

end Operand

/-- The comma between two arguments. -/
def skipComma : List Token → Except LineFault (List Token)
  | .comma :: r => .ok r
  | _ => .error .syntaxError

namespace Arguments

/-- The arguments of a form. -/
def read (form : Form) (ts : List Token) : Except LineFault (Arguments × List Token) :=
  match form with
  | .bare => .ok (.none, ts)
  | .oneReg | .stack => do
    let (reg, r) ← Register.read ts
    return (.one reg, r)
  | .twoReg => do
    let (dst, r) ← Register.read ts
    let (src, r') ← Register.read (← skipComma r)
    return (.two dst src, r')
  | .jump => do
    let (target, r) ← Operand.readTarget ts
    return (.jump target, r)
  | .data => do
    let (reg, r) ← Register.read ts
    let (operand, r') ← Operand.readData (← skipComma r)
    return (.data reg operand, r')

end Arguments

namespace Statement

/-- A statement: a directive after a period, or an instruction. -/
def read : List Token → Except LineFault (Statement × List Token)
  | .period :: r => do
    let (d, r') ← Directive.read r
    return (.directive d, r')
  | .ident op :: r =>
    match Mnemonic.ofName? op with
    | none => .error (.unknownOperation op)
    | some m => do
      let (arguments, r') ← Arguments.read m.form r
      return (.instruction ⟨m, arguments⟩, r')
  | _ => .error .syntaxError

end Statement

namespace SourceLine

/-- The statement after a label, with nothing behind it. -/
def afterLabel (label : Option String) : List Token → Except LineFault SourceLine
  | [] => .ok ⟨label, none⟩
  | ts => do
    let (s, r) ← Statement.read ts
    if r.isEmpty then return ⟨label, some s⟩ else .error .syntaxError

/-- The line of a list of tokens; an identifier before a colon is a label. -/
def ofTokens : List Token → Except LineFault SourceLine
  | .ident name :: .colon :: r => afterLabel (some name) r
  | ts => afterLabel none ts

/-- The line of a text. -/
def ofText (s : String) : Except LineFault SourceLine :=
  ofTokens (tokens s.toList)

end SourceLine
end Sx16
