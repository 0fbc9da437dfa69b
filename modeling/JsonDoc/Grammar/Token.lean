import JsonDoc.Byte
import JsonDoc.Scanner

/-!
# Tokens

The strict grammar is standard JSON. The relaxed grammar adds `+` signs, hexadecimal, binary and
octal literals, numbers with an empty fraction or exponent, bare words and `#` comments.

```text
strict   number  ::= "-"? ("0" | [1-9][0-9]*) ("." [0-9]+)? ([eE] [+-]? [0-9]+)?
relaxed  number  ::= [+-]? ( "0" [xX] hex+ | "0" [bB] bin+ | "0" oct+
                           | ("0" | [1-9][0-9]*) ("." [0-9]*)? ([eE] [+-]? [0-9]*)? )
         word    ::= [A-Za-z_][A-Za-z0-9_]*
         comment ::= "#" ... end of line
```

Each rule reads one token from where it starts and yields exactly one event for it.
-/

namespace JsonDoc

/-- The dialects of JSON. -/
inductive Grammar where
  | strict
  | relaxed
deriving DecidableEq, Repr

namespace Grammar

/-- The name of a dialect. -/
def name : Grammar → String
  | strict => "strict"
  | relaxed => "relaxed"

/-- The dialect of a name. -/
def ofName? (name : String) : Option Grammar :=
  [strict, relaxed].find? fun g => g.name == name

/-! ## Blanks and comments -/

/-- The number of bytes of blanks and comments at the front, given whether a comment is open. A
comment runs to the next line feed, which is a blank, or to the end. -/
def commentedLength : Bool → List UInt8 → Nat
  | _, [] => 0
  | true, b :: rest => 1 + commentedLength (b != Byte.lineFeed) rest
  | false, b :: rest =>
    if Byte.isBlank b then 1 + commentedLength false rest
    else if b = Byte.hash then 1 + commentedLength true rest
    else 0

/-- The number of bytes at the front that mean nothing. -/
def triviaLength : Grammar → List UInt8 → Nat
  | strict, bytes => (bytes.takeWhile Byte.isBlank).length
  | relaxed, bytes => commentedLength false bytes

/-- Goes on past all bytes that mean nothing. -/
def skip (g : Grammar) (s : Scanner) : Scanner := s.advance (g.triviaLength s.rest)

end Grammar

/-! ## Strings -/

/-- Where the reader of a string token stands between two bytes after the opening quote. -/
inductive StringState where
  | plain
  /-- After a backslash. -/
  | escaped
  /-- Inside a `\u` escape, with one digit more than `more` still to come. -/
  | hex (more : Nat)
deriving DecidableEq, Repr

namespace StringState

/-- What the end of the input leaves missing. -/
def expected : StringState → Expectation
  | plain => .closingQuote
  | escaped => .escapeCharacter
  | hex _ => .hexDigit

/-- One byte: an error if it may not stand here, no state if it closes the string. A backslash
may be followed by any byte; only `u` asks for more. -/
def step : StringState → UInt8 → Except Expectation (Option StringState)
  | plain, b =>
    if b = Byte.quote then .ok none
    else if b = Byte.backslash then .ok (some escaped)
    else if Byte.isControl b then .error .stringCharacter
    else .ok (some plain)
  | escaped, b => if b = Byte.lowerU then .ok (some (hex 3)) else .ok (some plain)
  | hex more, b =>
    if Byte.isHexDigit b then
      match more with
      | 0 => .ok (some plain)
      | more + 1 => .ok (some (hex more))
    else .error .hexDigit

/-- How many bytes the rest of a string token takes, its closing quote included; on an error, the
bytes before it and what was expected. -/
def scan : StringState → List UInt8 → Nat × Option Expectation
  | state, [] => (0, some state.expected)
  | state, b :: rest =>
    match state.step b with
    | .error expected => (0, some expected)
    | .ok none => (1, none)
    | .ok (some next) => ((next.scan rest).1 + 1, (next.scan rest).2)

end StringState

namespace Grammar

/-- The rest of a string token after its opening quote. -/
def stringBody : Rule := fun s =>
  match StringState.plain.scan s.rest with
  | (count, none) => .done (s.advance count)
  | (count, some expected) => .missing (s.advance count) expected

/-- A quoted string, with its quotes. -/
def string : Rule := fun s =>
  ((Run.expect Byte.quote .openingQuote s).andThen stringBody).andThen fun t => .token .string s t

/-! ## Words -/

/-- A bare word. -/
def word : Rule := fun s => .token .string s (s.skipWhile Byte.isWordPart)

/-- One of the literals. In the strict grammar its bytes must come next. In the relaxed one the
whole word decides: another word is a string, except that a word cut short by the end of the
input may still become the literal. -/
def literal : Grammar → Literal → Rule
  | strict, l => fun s =>
    if s.rest.length < l.word.length then .fail s (.overrun s.length (.literal l))
    else if l.word.isPrefixOf s.rest then .token l.kind s (s.advance l.word.length)
    else .fail s (.unexpected s.position (.literal l))
  | relaxed, l => fun s =>
    let t := s.skipWhile Byte.isWordPart
    let word := s.textTo t
    if word = l.word then .token l.kind s t
    else if t.atEnd && word.isPrefixOf l.word then .fail t (.overrun t.length (.literal l))
    else .token .string s t

/-! ## Numbers -/

/-- Whether a number may start with this sign. -/
def isSign : Grammar → UInt8 → Bool
  | strict, b => b == Byte.minus
  | relaxed, b => Byte.isSign b

/-- The digits of a fraction or an exponent; the relaxed grammar takes none as well. -/
def digits : Grammar → Expectation → Rule
  | strict, expected => .atLeastOne Byte.isDigit expected
  | relaxed, _ => fun s => .done (s.skipWhile Byte.isDigit)

/-- A hexadecimal, binary or octal literal after the sign, if one starts here. -/
def radix? : Grammar → Scanner → Option Run
  | strict, _ => none
  | relaxed, s =>
    match s.rest with
    | first :: second :: _ =>
      if first ≠ Byte.zero then none
      else if Byte.isHexMark second then some (.atLeastOne Byte.isHexDigit .hexDigit (s.advance 2))
      else if Byte.isBinaryMark second then
        some (.atLeastOne Byte.isBinaryDigit .binaryDigit (s.advance 2))
      else if Byte.isOctalDigit second then some (.done (s.bump.skipWhile Byte.isOctalDigit))
      else none
    | _ => none

/-- The integer part: a zero, or digits that do not start with one. -/
def integer : Rule := fun s =>
  match s.peek with
  | none => .missing s .digit
  | some b =>
    if b = Byte.zero then .done s.bump
    else if Byte.isPositiveDigit b then .done (s.skipWhile Byte.isDigit)
    else .missing s .digit

/-- The fraction, if there is one. -/
def fraction (g : Grammar) : Rule := fun s =>
  if s.peek = some Byte.dot then g.digits .fractionDigit s.bump else .done s

/-- The exponent, if there is one. -/
def exponent (g : Grammar) : Rule := fun s =>
  if s.peek.any Byte.isExponentMark then g.digits .exponentDigit (s.bump.bumpIf Byte.isSign)
  else .done s

/-- The end of a number that began at `start`: no letter, digit, underscore or point may follow,
so that `01` is not two numbers. -/
def numberEnd (start : Scanner) : Rule := fun s =>
  if s.peek.any fun b => Byte.isWordPart b || b == Byte.dot then
    .fail s (.unexpected s.position .delimiterAfterNumber)
  else .token .number start s

/-- A number after its sign. -/
def magnitude (g : Grammar) : Rule := fun s =>
  match g.radix? s with
  | some run => run
  | none => ((integer s).andThen g.fraction).andThen g.exponent

/-- A number, from its sign to its last digit. -/
def number (g : Grammar) : Rule := fun s =>
  (g.magnitude (s.bumpIf g.isSign)).andThen (numberEnd s)

end Grammar
end JsonDoc
