import JsonDoc.Tree.Datum
import JsonDoc.Writer.Basic

/-!
# A printer of JSON

The printer that the running program uses. Data are printed over several lines, indented by two
spaces for each level, and in texts only the characters are escaped that JSON asks for.
-/

namespace JsonDoc
namespace Json

/-- Numbers have the fewest digits, of two equally near texts the one with an even last digit, a
fraction even if it is zero, and a signed exponent below 1e-5 and from 1e16 on. -/
def numberLayout : Decimal.Layout where
  tie := .even
  positional := some (-5, 15)
  fraction := true
  exponentSign := "+"
  infinity := "null"
  negativeInfinity := "null"
  nan := "null"

/-- A text in its quotes. -/
def quoted (text : String) : String := "\"" ++ Escape.encodeText text ++ "\""

mutual

/-- The text of a datum that stands at a level. -/
def node (level : Nat) : Datum → String
  | .null => "null"
  | .boolean true => "true"
  | .boolean false => "false"
  | .integer n => toString n
  | .double x => x.write numberLayout
  | .text value => quoted value
  | .list data => Writer.enclose 2 level "[" "]" (items (level + 1) data)
  | .record data => Writer.enclose 2 level "\x7b" "\x7d" (fields (level + 1) data)

/-- The texts of list items. -/
def items (level : Nat) : List Datum → List String
  | [] => []
  | item :: rest => node level item :: items level rest

/-- The texts of record fields. -/
def fields (level : Nat) : List (String × Datum) → List String
  | [] => []
  | (key, value) :: rest =>
    (quoted key ++ Writer.afterKey 2 ++ node level value) :: fields level rest

end

/-- The text of a datum. -/
def print : Datum → String := node 0

end Json
end JsonDoc
