import JsonDoc.Diagnostic.Basic
import JsonDoc.Text.Lines

/-!
# Rendered reports

A report shows an error to a reader: its code and its sentence, the place in the source with the
line it is on and the lines around it, and advice. Labels lie within one line.
-/

namespace JsonDoc
namespace Diagnostic

/-- Some spaces. -/
def spaces (count : Nat) : String := String.ofList (List.replicate count ' ')

/-- The columns that text takes from a column on; a tab goes on to the next multiple of four. -/
def width (column : Nat) : List Char → Nat
  | [] => 0
  | c :: rest =>
    let step := if c = '\t' then 4 - column % 4 else 1
    step + width (column + step) rest

/-- A line with its tabs spread out into spaces. -/
def untabbed (column : Nat) : List Char → List Char
  | [] => []
  | c :: rest =>
    if c = '\t' then
      List.replicate (4 - column % 4) ' ' ++ untabbed (column + (4 - column % 4)) rest
    else c :: untabbed (column + 1) rest

/-- The underline of a label and the label's text below it, for the columns from `start` up to
`stop`. The text hangs from the middle of the underline. -/
def underline (gutter : String) (start stop : Nat) (text : String) : List String :=
  let middle := (start + stop) / 2
  [gutter ++ spaces start ++ String.ofList (List.replicate (middle - start) '─') ++ "┬" ++
      String.ofList (List.replicate (stop - middle - 1) '─'),
    gutter ++ spaces middle ++ "╰── " ++ text]

/-- A label in its source: where it is, the line it is on with one line before and after it, and
the underline below that line. A label of length zero has none. -/
def snippet (name : String) (source : List UInt8) (label : Label) : List String :=
  let place := Position.ofOffset source label.offset
  let lines := Lines.ofText (Utf8.decode source)
  let first := place.line - 1
  let shown := (List.range lines.length).filter fun index =>
    decide (first ≤ index + 1) && decide (index ≤ first + 1)
  let digits := (shown.map fun index => (toString (index + 1)).length).foldl max 1
  let gutter := spaces (digits + 2) ++ "· "
  let row := fun index =>
    let line := lines.getD index []
    let number := toString (index + 1)
    let text := " " ++ spaces (digits - number.length) ++ number ++ " │ " ++
      String.ofList (untabbed 0 line)
    if index + 1 = place.line ∧ 0 < label.length then
      let start := width 0 (line.take (place.column - 1))
      let stop := start + max 1 (width start ((line.drop (place.column - 1)).take label.length))
      text :: underline gutter start stop label.text
    else [text]
  [spaces (digits + 2) ++ "╭─[" ++ name ++ ":" ++ toString place.line ++ ":" ++
      toString place.column ++ "]"] ++
    shown.flatMap row ++ [spaces (digits + 2) ++ "╰────"]

/-- The report of an error whose source has a name. -/
def render (error : Diagnostic) (name : String) (source : List UInt8) : String :=
  let lines := [error.code, "", "  × " ++ error.message] ++
    error.labels.flatMap (snippet name source) ++
    (error.help.map fun help => "  help: " ++ help).toList
  String.join (lines.map (· ++ "\n"))

end Diagnostic
end JsonDoc
