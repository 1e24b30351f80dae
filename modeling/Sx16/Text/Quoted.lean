/-
# Quoted names

A name is shown between double quotes. Quotes, backslashes and the common controls get a backslash;
any other character that does not show is given by its code point.

Key definitions: `Text.quoted`.
-/
import Sx16.Text.Numeral
import Sx16.Text.Unprintable

namespace Sx16
namespace Text

/-- A character as it is shown between quotes. -/
def quotedChar (c : Char) : String :=
  match c with
  | '\x00' => "\\0"
  | '\t' => "\\t"
  | '\n' => "\\n"
  | '\r' => "\\r"
  | '"' => "\\\""
  | '\\' => "\\\\"
  | c =>
    if isPrintable c then String.singleton c else "\\u\x7b" ++ hexLower 1 c.toNat ++ "\x7d"

/-- A name between double quotes. -/
def quoted (s : String) : String :=
  "\"" ++ String.join (s.toList.map quotedChar) ++ "\""

end Text
end Sx16
