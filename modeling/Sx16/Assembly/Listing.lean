/-
# The assembly listing

One row for every line that put bytes into a section: the line's number, where the bytes went, the
first eight of them, and the source line.

Key definitions: `Assembly.listingText`.
-/
import Sx16.Assembly.State
import Sx16.Text.Blank

namespace Sx16

/-- The number of bytes that a row of the listing shows. -/
def listedBytes : Nat := 8

/-- The rule above and below the listing. -/
def listingRule : String :=
  "------+---------------+--------------------------+----------------------------\n"

namespace Assembly

/-- A row of the listing. -/
def listingRow (a : Assembly) (source : List String) (e : Emission) : String :=
  let code := String.ofList (Text.trim ((source[e.line - 1]?).getD "").toList)
  let shown := " ".intercalate ((e.bytes.take listedBytes).map fun b => Text.hex 2 b.toNat)
  let more := if e.bytes.length > listedBytes then Style.paint [.dim] ".." else ""
  Style.paint [.dim] (Text.alignRight 5 (Text.decimal e.line)) ++ " | " ++
    Style.paint [.blue] (Text.alignRight 8 (a.sectionName e.home)) ++ "+" ++
    Text.hex 4 e.offset.toNat ++ " | " ++ Style.paint [.green] (Text.alignLeft 24 shown) ++ more ++
    " | " ++ code ++ "\n"

/-- The listing of a run over a source text. -/
def listingText (a : Assembly) (source : List String) : String :=
  listingRule ++ String.join (a.listing.toList.map (a.listingRow source)) ++ listingRule

end Assembly
end Sx16
