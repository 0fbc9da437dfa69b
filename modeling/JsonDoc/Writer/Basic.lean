import JsonDoc.Decimal.Layout
import JsonDoc.Options
import JsonDoc.Tree.Basic

/-!
# Writing trees as JSON

A `Writer.Style` says how the leaves of a tree are written. The rest is the same for all styles:
members in the order of their keys, and for each level of a container one line an item, indented,
or everything on one line.
-/

namespace JsonDoc
namespace Writer

/-- How the leaves of a tree are written. -/
structure Style where
  number : Binary64 → String
  /-- What stands between the quotes for the content of a string or a key. -/
  content : String → String

/-- A new line with the indentation of a level; nothing in compact text. -/
def newline (indent level : Nat) : String :=
  if indent = 0 then "" else String.ofList ('\n' :: List.replicate (indent * level) ' ')

/-- What stands between a key and its value. -/
def afterKey (indent : Nat) : String := if indent = 0 then ":" else ": "

/-- Texts in brackets, with commas between them and each on a line of the inner level. -/
def enclose (indent level : Nat) (opening closing : String) (texts : List String) : String :=
  if texts.isEmpty then opening ++ closing
  else
    opening ++ newline indent (level + 1) ++
      ("," ++ newline indent (level + 1)).intercalate texts ++
      newline indent level ++ closing

/-- Content in its quotes. -/
def quoted (style : Style) (content : String) : String := "\"" ++ style.content content ++ "\""

mutual

/-- The text of a node that stands at a level. -/
def node (style : Style) (indent level : Nat) : Tree → String
  | .null => "null"
  | .boolean true => "true"
  | .boolean false => "false"
  | .number n => style.number n
  | .string content => quoted style content
  | .array trees => enclose indent level "[" "]" (items style indent (level + 1) trees)
  | .object pairs =>
    enclose indent level "\x7b" "\x7d" (members style indent (level + 1) pairs)

/-- The texts of array items. -/
def items (style : Style) (indent level : Nat) : List Tree → List String
  | [] => []
  | item :: rest => node style indent level item :: items style indent level rest

/-- The texts of object members. -/
def members (style : Style) (indent level : Nat) : List (String × Tree) → List String
  | [] => []
  | (key, value) :: rest =>
    (quoted style key ++ afterKey indent ++ node style indent level value) ::
      members style indent level rest

end

/-- An integer as such if it is smaller than a limit, and any other number in a layout. -/
def integerOr (limit : Nat) (layout : Decimal.Layout) (n : Binary64) : String :=
  if n.isIntegral && decide (n.truncate.natAbs < limit) then toString n.truncate
  else n.write layout

end Writer
end JsonDoc
