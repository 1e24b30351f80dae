/-
# White space

The white space of the text formats is Unicode's White_Space property, 25 code points. Two operations
cut text by it: `trim` removes it from both ends and `words` gives the maximal pieces without it.

Key definitions: `Text.isBlank`, `Text.trim`, `Text.trimEnd`, `Text.words`.
-/

namespace Sx16
namespace Text

/-- The code points with the White_Space property: the controls from tab to carriage return, space,
next line, no-break space and the wider spaces. -/
def isBlank (c : Char) : Bool :=
  (9 ≤ c.toNat && c.toNat ≤ 13) || c.toNat == 0x20 || c.toNat == 0x85 || c.toNat == 0xA0 ||
    c.toNat == 0x1680 || (0x2000 ≤ c.toNat && c.toNat ≤ 0x200A) || c.toNat == 0x2028 ||
    c.toNat == 0x2029 || c.toNat == 0x202F || c.toNat == 0x205F || c.toNat == 0x3000

/-- The text without the blanks at its end. -/
def trimEnd (cs : List Char) : List Char :=
  (cs.reverse.dropWhile isBlank).reverse

/-- The text without the blanks at either end. -/
def trim (cs : List Char) : List Char :=
  trimEnd (cs.dropWhile isBlank)

/-- The maximal pieces without a blank, in order. -/
def words (cs : List Char) : List (List Char) :=
  (cs.splitOnP isBlank).filter fun w => !w.isEmpty

end Text
end Sx16
