/-
# Reports

What goes wrong is reported in lines of terminal text: the error itself, what caused it where that is
known, and warnings.

Key definitions: `Text.errorLine`, `Text.causeLine`, `Text.warningLine`.
-/
import Sx16.Text.Style

namespace Sx16
namespace Text

/-- The line of an error. -/
def errorLine (message : String) : String :=
  Style.paint [.red, .bold] "error" ++ ": " ++ message ++ "\n"

/-- The line of what caused an error. -/
def causeLine (cause : String) : String :=
  "     " ++ Style.paint [.blue] "= caused by:" ++ " " ++ cause ++ "\n"

/-- The line of a warning. -/
def warningLine (message : String) : String :=
  Style.paint [.yellow, .bold] "warning" ++ ": " ++ message ++ "\n"

end Text
end Sx16
