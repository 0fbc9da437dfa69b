import JsonDoc.Decimal.Layout
import JsonDoc.NumberText
import JsonDoc.Text.Lines
import JsonDoc.Tree.Datum

/-!
# A printer of YAML

The printer that the running program uses. Data are printed in block style. What stands below a key
or after a dash is indented by two columns, except that the dashes of a sequence stand in the column
of the key above it.

A string is written plainly where nothing else reads from it. Otherwise it stands in single
quotes, or, with line feeds in it, as a literal block. What neither can hold stands in double
quotes with escapes.
-/

namespace JsonDoc
namespace Yaml

/-- Numbers have the fewest digits, of two equally near texts the one with an even last digit, a
fraction even if it is zero, and an exponent below 1e-5 and from 1e16 on. -/
def numberLayout : Decimal.Layout where
  tie := .even
  positional := some (-5, 15)
  fraction := true
  exponentSign := ""
  infinity := ".inf"
  negativeInfinity := "-.inf"
  nan := ".nan"

/-! ## Characters -/

/-- A character that ends a line. -/
def isBreak (c : Char) : Bool :=
  c == '\n' || c == '\r' || c == '\u0085' || c == '\u2028' || c == '\u2029'

/-- A blank, a line end or a null character. -/
def isBlank (c : Char) : Bool := c == ' ' || c == '\t' || isBreak c || c == '\x00'

/-- A character that may stand for itself. -/
def isPrintable (c : Char) : Bool :=
  let code := c.toNat
  code == 0x0A || (0x20 ≤ code && code ≤ 0x7E) || (0xA0 ≤ code && code ≤ 0xD7FF) ||
    (0xE000 ≤ code && code ≤ 0xFFFD && code != 0xFEFF) || 0x10000 ≤ code

/-- A character that means something else at the start of a plain scalar. -/
def isIndicator (c : Char) : Bool := "#,[]\x7b\x7d&*!|>'\"%@`".toList.contains c

/-! ## Scalars that are not strings -/

/-- Whether a text is one of the words for null and the booleans. -/
def isWord (text : String) : Bool :=
  ["null", "Null", "NULL", "~", "true", "True", "TRUE", "false", "False", "FALSE"].contains text

/-- Whether digits of a base follow the mark and spell a number below a limit. -/
def isRadix (base limit : Nat) (digits : List Char) : Bool :=
  let value := digits.foldlM
    (fun n c => (Hex.digit? c).bind fun d => if d < base then some (n * base + d) else none) 0
  !digits.isEmpty && value.any (· < limit)

/-- Whether a text is an integer of 128 bits in base 16, 8 or 2. -/
def isMarkedInteger (chars : List Char) : Bool :=
  let (limit, body) := match chars with
    | '+' :: body => (1 <<< 128, body)
    | '-' :: body => ((1 <<< 127) + 1, body)
    | body => (1 <<< 128, body)
  match body with
  | '0' :: 'x' :: digits => isRadix 16 limit digits
  | '0' :: 'o' :: digits => isRadix 8 limit digits
  | '0' :: 'b' :: digits => isRadix 2 limit digits
  | _ => false

/-- Whether a text is digits after a leading zero, with an optional sign. -/
def isZeroPadded (chars : List Char) : Bool :=
  let body := match chars with
    | '+' :: body => body
    | '-' :: body => body
    | body => body
  match body with
  | '0' :: c :: digits => (c :: digits).all Char.isDigit
  | _ => false

/-- Whether a text is a decimal number whose value is finite, with an optional sign. -/
def isDecimal (chars : List Char) : Bool :=
  let body := match chars with
    | '+' :: body => body
    | '-' :: body => body
    | body => body
  (NumberText.decimal? body).any fun d => d.toBinary64.isFinite

/-- Whether a text is one of the words for numbers that are not finite. -/
def isSpecialNumber (text : String) : Bool :=
  [".inf", ".Inf", ".INF", "+.inf", "+.Inf", "+.INF", "-.inf", "-.Inf", "-.INF", ".nan", ".NaN",
    ".NAN"].contains text

/-- Whether a plain text would read as something else than a string. -/
def readsOtherwise (text : String) : Bool :=
  let chars := text.toList
  chars.isEmpty || isWord text || isMarkedInteger chars || isZeroPadded chars ||
    isDecimal chars || isSpecialNumber text

/-! ## Styles -/

/-- Whether some two neighbouring characters are of the given classes. -/
def neighbours (p q : Char → Bool) : List Char → Bool
  | a :: b :: rest => (p a && q b) || neighbours p q (b :: rest)
  | _ => false

/-- Whether a colon stands before a blank or at the end. -/
def hasMappingColon (chars : List Char) : Bool :=
  chars.getLast? == some ':' || neighbours (· == ':') isBlank chars

/-- Whether the text starts with something that a plain scalar in a block cannot start with. -/
def startsSpecially (chars : List Char) : Bool :=
  ['-', '-', '-'].isPrefixOf chars || ['.', '.', '.'].isPrefixOf chars ||
    match chars with
    | [] => false
    | c :: rest =>
      isIndicator c || ((c == '?' || c == ':' || c == '-') && rest.head?.all isBlank)

/-- Whether a character of the text has to be escaped, or a space stands before a line end. -/
def needsEscapes (chars : List Char) : Bool :=
  !chars.all isPrintable || neighbours (· == ' ') isBreak chars

/-- Whether single quotes can hold the text. -/
def singleAllowed (chars : List Char) : Bool :=
  !needsEscapes chars && !neighbours isBreak (· == ' ') chars

/-- Whether the text can stand without quotes. -/
def plainAllowed (chars : List Char) : Bool :=
  singleAllowed chars && !chars.any isBreak && chars.head? != some ' ' &&
    chars.getLast? != some ' ' && !startsSpecially chars && !hasMappingColon chars &&
    !neighbours isBlank (· == '#') chars

/-- Whether a literal block can hold the text. -/
def literalAllowed (chars : List Char) : Bool :=
  !needsEscapes chars && chars.getLast? != some ' '

/-- A hexadecimal digit in upper case. -/
def upperHex (digit : Nat) : Char :=
  if digit < 10 then Char.ofNat ('0'.toNat + digit) else Char.ofNat ('A'.toNat + (digit - 10))

/-- The last `count` hexadecimal digits of a code point. -/
def hexDigits (code : Nat) : Nat → List Char
  | 0 => []
  | count + 1 => hexDigits (code / 16) count ++ [upperHex (code % 16)]

/-- A character inside double quotes. -/
def escapeChar (c : Char) : List Char :=
  if isPrintable c && !isBreak c && c != '"' && c != '\\' then [c]
  else
    match c with
    | '\x00' => ['\\', '0']
    | '\x07' => ['\\', 'a']
    | '\x08' => ['\\', 'b']
    | '\t' => ['\\', 't']
    | '\n' => ['\\', 'n']
    | '\x0b' => ['\\', 'v']
    | '\x0c' => ['\\', 'f']
    | '\r' => ['\\', 'r']
    | '\x1b' => ['\\', 'e']
    | '"' => ['\\', '"']
    | '\\' => ['\\', '\\']
    | '\u0085' => ['\\', 'N']
    | '\u2028' => ['\\', 'L']
    | '\u2029' => ['\\', 'P']
    | c =>
      if c.toNat ≤ 0xFF then '\\' :: 'x' :: hexDigits c.toNat 2
      else if c.toNat ≤ 0xFFFF then '\\' :: 'u' :: hexDigits c.toNat 4
      else '\\' :: 'U' :: hexDigits c.toNat 8

/-- A text in double quotes. -/
def doubleQuoted (chars : List Char) : String :=
  String.ofList ('"' :: chars.flatMap escapeChar ++ ['"'])

/-- Characters with an indentation after each line end; `fresh` says that one was just written.
The closing quote of a quoted text counts as a character. -/
def indented (indent : Nat) : Bool → List Char → List Char
  | _, [] => []
  | fresh, c :: rest =>
    if isBreak c then c :: indented indent true rest
    else (if fresh then List.replicate indent ' ' else []) ++ c :: indented indent false rest

/-- A text in single quotes, in which a quote is written twice. -/
def singleQuoted (indent : Nat) (chars : List Char) : String :=
  let body := chars.flatMap fun c => if c = '\'' then ['\'', '\''] else [c]
  String.ofList ('\'' :: indented indent false (body ++ ['\'']))

/-- The first line of a literal block: whether the indentation has to be told, and what becomes of
the line ends at its end. -/
def literalHeader (chars : List Char) : String :=
  let hint := if chars.head?.any fun c => c == ' ' || isBreak c then "2" else ""
  let chomping := match chars.reverse with
    | [] => "-"
    | [c] => if isBreak c then "+" else "-"
    | c :: d :: _ => if !isBreak c then "-" else if isBreak d then "+" else ""
  "|" ++ hint ++ chomping

/-- The lines of a literal block. -/
def literal (indent : Nat) (chars : List Char) : List String :=
  literalHeader chars :: (Lines.ofText (indented indent true chars)).map String.ofList

/-- The lines of a string. -/
def scalar (indent : Nat) (text : String) : List String :=
  let chars := text.toList
  if chars.contains '\n' then
    if literalAllowed chars then literal indent chars else [doubleQuoted chars]
  else if !readsOtherwise text && plainAllowed chars then [text]
  else if singleAllowed chars then [singleQuoted indent chars]
  else [doubleQuoted chars]

/-! ## Data -/

/-- Whether a key may stand before a colon on its line: it is one line of at most 128 bytes. -/
def isSimpleKey (key : String) : Bool :=
  !key.toList.any isBreak && decide (key.utf8ByteSize ≤ 128)

/-- Lines with some text in front of the first one. -/
def leadWith (text : String) : List String → List String
  | [] => [text]
  | line :: lines => (text ++ line) :: lines

/-- Lines with the first one moved to a column. -/
def moveTo (column : Nat) (lines : List String) : List String :=
  leadWith (String.ofList (List.replicate column ' ')) lines

/-- The entries of a collection in a column. The first one stands where the collection begins. -/
def stack (column : Nat) : List (List String) → List String
  | [] => []
  | entry :: entries => entry ++ entries.flatMap (moveTo column)

mutual

/-- The lines of a datum whose collections stand in a column. The first line is to be put where the
datum begins, the others are complete. -/
def node (column : Nat) : Datum → List String
  | .null => ["null"]
  | .boolean true => ["true"]
  | .boolean false => ["false"]
  | .integer n => [toString n]
  | .double x => [x.write numberLayout]
  | .text value => scalar column value
  | .list items => if items.isEmpty then ["[]"] else stack column (sequence column items)
  | .record fields => if fields.isEmpty then ["\x7b\x7d"] else stack column (mapping column fields)

/-- The entries of a sequence. -/
def sequence (column : Nat) : List Datum → List (List String)
  | [] => []
  | item :: rest => leadWith "- " (node (column + 2) item) :: sequence column rest

/-- The entries of a mapping. -/
def mapping (column : Nat) : List (String × Datum) → List (List String)
  | [] => []
  | (key, value) :: rest => entry column key value :: mapping column rest

/-- An entry of a mapping. A collection begins on a line of its own below a simple key; any other
key is marked, and so is its value. -/
def entry (column : Nat) (key : String) (value : Datum) : List String :=
  if isSimpleKey key then
    let name := String.join (scalar (column + 2) key)
    match value with
    | .list (item :: items) =>
      (name ++ ":") :: moveTo column (node column (.list (item :: items)))
    | .record (field :: fields) =>
      (name ++ ":") :: moveTo (column + 2) (node (column + 2) (.record (field :: fields)))
    | value => leadWith (name ++ ": ") (node (column + 2) value)
  else
    leadWith "? " (scalar (column + 2) key) ++
      moveTo column (leadWith ": " (node (column + 2) value))

end

/-- The text of a datum. -/
def print (datum : Datum) : String :=
  let column := match datum with
    | .list _ => 0
    | .record _ => 0
    | _ => 2
  "\n".intercalate (node column datum) ++ "\n"

end Yaml
end JsonDoc
