/-
# Tokens of a source line

Blanks separate tokens and a number sign starts a comment. A word that starts with a letter or an
underscore is an identifier, one that starts with a digit is a number; a text stands between double
quotes. What is no token ends the line: its token is `bad`, and nothing is read after it.

Key definitions: `Token`, `Token.read`, `tokens`.
-/
import Sx16.Text.Blank
import Sx16.Text.Numeral

namespace Sx16

/-- A token of a source line. -/
inductive Token where
  | ident (name : String)
  | number (value : UInt32)
  | text (bytes : List UInt8)
  | dollar | percent | star | plus | comma | colon | period | lbracket | rbracket
  | bad (lexeme : String)
  deriving DecidableEq

namespace Token

/-- The tokens of one character. -/
def punctuation? (c : Char) : Option Token :=
  match c with
  | '$' => some dollar
  | '%' => some percent
  | '*' => some star
  | '+' => some plus
  | ',' => some comma
  | ':' => some colon
  | '.' => some period
  | '[' => some lbracket
  | ']' => some rbracket
  | _ => none

/-- A character that can start an identifier. -/
def isWordStart (c : Char) : Bool := c.isAlpha || c == '_'

/-- A character of an identifier or a number. -/
def isWordChar (c : Char) : Bool := c.isAlphanum || c == '_'

/-- The byte that a character after a backslash stands for. -/
def unescape? (c : Char) : Option UInt8 :=
  match c with
  | 'n' => some 10
  | 't' => some 9
  | 'r' => some 13
  | '0' => some 0
  | '\\' => some 92
  | '"' => some 34
  | _ => none

/-- The bytes of a text after its opening quote, and what follows the closing one; none if the text
has an unknown escape or no end. -/
def readText : List Char → Option (List UInt8 × List Char)
  | [] => none
  | '"' :: r => some ([], r)
  | '\\' :: c :: r =>
    match unescape? c, readText r with
    | some b, some (bs, r') => some (b :: bs, r')
    | _, _ => none
  | c :: r =>
    if c = '\\' then none
    else
      match readText r with
      | some (bs, r') => some (String.utf8EncodeChar c ++ bs, r')
      | none => none

theorem length_readText {cs : List Char} {bs : List UInt8} {r : List Char}
    (h : readText cs = some (bs, r)) : r.length < cs.length := by
  fun_induction readText cs generalizing bs r <;> grind

/-- The token of a word that starts with a digit. -/
def ofDigits (word : List Char) : Token :=
  match Text.readPrefixed word with
  | some n => number n
  | none => bad (String.ofList word)

/-- The token that starts with `c`, which is neither a blank nor the start of a comment, and what
follows it. -/
def read (c : Char) (r : List Char) : Token × List Char :=
  match punctuation? c with
  | some t => (t, r)
  | none =>
    if isWordStart c then
      (ident (String.ofList (c :: r.takeWhile isWordChar)), r.dropWhile isWordChar)
    else if c.isDigit then (ofDigits (c :: r.takeWhile isWordChar), r.dropWhile isWordChar)
    else if c = '"' then
      match readText r with
      | some (bs, r') => (text bs, r')
      | none => (bad (String.ofList (c :: r)), [])
    else (bad (String.singleton c), r)

theorem length_read (c : Char) (r : List Char) : (read c r).2.length ≤ r.length := by
  have hd : (r.dropWhile isWordChar).length ≤ r.length := (List.dropWhile_sublist _).length_le
  unfold read
  split
  · simp
  · split
    · exact hd
    · split
      · exact hd
      · split
        · split
          · rename_i h
            exact Nat.le_of_lt (length_readText h)
          · simp
        · simp

/-- Whether a token stands for text that is none. -/
def isBad : Token → Bool
  | bad _ => true
  | _ => false

end Token

/-- The tokens of a line up to its end, a comment or the first bad token. -/
def tokens : List Char → List Token
  | [] => []
  | c :: r =>
    if Text.isBlank c then tokens r
    else if c = '#' then []
    else if (Token.read c r).1.isBad then [(Token.read c r).1]
    else (Token.read c r).1 :: tokens (Token.read c r).2
termination_by cs => cs.length
decreasing_by
  · simp
  · have := Token.length_read c r
    simp
    omega

end Sx16
