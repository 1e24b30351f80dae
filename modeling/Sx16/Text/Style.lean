/-
# Terminal styles

A styled piece of text stands between the escape sequences that switch its styles on and those that
switch them off, both in the same order.

Key definitions: `Style`, `Style.paint`.
-/

namespace Sx16

/-- A colour or weight of terminal text. -/
inductive Style where
  | bold | dim | underline | red | green | yellow | blue
  deriving DecidableEq

namespace Style

/-- The parameter that switches a style on. -/
def on : Style → String
  | bold => "1"
  | dim => "2"
  | underline => "4"
  | red => "31"
  | green => "32"
  | yellow => "33"
  | blue => "34"

/-- The parameter that switches a style off: one for all colours, one for both weights. -/
def off : Style → String
  | bold | dim => "22"
  | underline => "24"
  | red | green | yellow | blue => "39"

/-- The escape sequence for one parameter. -/
def escape (parameter : String) : String :=
  "\x1b[" ++ parameter ++ "m"

/-- A text in the given styles. -/
def paint (styles : List Style) (s : String) : String :=
  String.join (styles.map (escape ∘ on)) ++ s ++ String.join (styles.map (escape ∘ off))

end Style
end Sx16
