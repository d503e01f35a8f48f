import Tapecode.Position
import Tapecode.Text.Columns
import Tapecode.Text.Utf8

/-!
# Diagnostics

A diagnostic names a file and, where it can, shows the line it is about with a caret under the column.
The line is shown without the carriage returns at its end, and bytes that are not UTF-8 appear as
replacement characters. The caret is placed by bytes, as columns count them.

On a terminal the parts of a diagnostic are styled by escape sequences.
-/

namespace Tapecode

/-- The ways in which a part of a diagnostic can be styled. -/
inductive Style
  | bold
  | boldRed
  | boldYellow
  | boldBlue
  deriving DecidableEq, Repr

namespace Style

/-- The sequence that ends all styling. -/
def reset : String := "\x1b[0m"

/-- The sequence that starts a style. -/
def start : Style → String
  | bold => "\x1b[1m"
  | boldRed => "\x1b[1;31m"
  | boldYellow => "\x1b[1;33m"
  | boldBlue => "\x1b[1;34m"

/-- A text in a style, or as it is where styles are off. A reset inside the text does not end the
style: it is started again after each. -/
def apply (style : Style) (on : Bool) (text : String) : String :=
  if on then style.start ++ text.replace reset (reset ++ style.start) ++ reset else text

end Style

/-- How grave a diagnostic is. -/
inductive Severity
  | warning
  | error
  deriving DecidableEq, Repr

/-- A message about a file. -/
structure Diagnostic where
  severity : Severity
  message : String
  path : String
  position : Option Position := none
  deriving DecidableEq, Repr

namespace Severity

/-- The word that starts a diagnostic. -/
def label : Severity → String
  | warning => "warning"
  | error => "error"

/-- The style of that word and of the caret. -/
def style : Severity → Style
  | warning => .boldYellow
  | error => .boldRed

end Severity

namespace Diagnostic

/-- The lines of a source text, without the line feeds that end them. -/
def lines : List UInt8 → List (List UInt8)
  | [] => [[]]
  | b :: rest =>
    if b = Position.lineFeed then [] :: lines rest
    else
      match lines rest with
      | line :: more => (b :: line) :: more
      | [] => [[b]]

/-- A line of a source text, counted from one. -/
def line? (source : List UInt8) (number : Nat) : Option (List UInt8) :=
  match number with
  | 0 => none
  | n + 1 => (lines source)[n]?

/-- A line as it is printed. -/
def lineText (line : List UInt8) : String :=
  String.ofList ((Text.Utf8.decode line).reverse.dropWhile (· = '\r')).reverse

/-- A diagnostic as it is printed, with `source` as the contents of its file. -/
def render (d : Diagnostic) (source : List UInt8) (styled : Bool) : String :=
  let blue := Style.boldBlue.apply styled
  let severe := d.severity.style.apply styled
  let head := severe d.severity.label ++ ": " ++ Style.bold.apply styled d.message ++
    "\n " ++ blue "-->" ++ " " ++ d.path
  match d.position with
  | none => head
  | some p =>
    let head := head ++ ":" ++ p.text
    match line? source p.line with
    | none => head
    | some line =>
      let number := toString p.line
      let gutter := Text.blanks number.length
      head ++
        "\n" ++ gutter ++ " " ++ blue "|" ++
        "\n" ++ blue number ++ " " ++ blue "|" ++ " " ++ lineText line ++
        "\n" ++ gutter ++ " " ++ blue "|" ++ " " ++ severe (Text.blanks (p.column - 1) ++ "^")

end Diagnostic

end Tapecode
