import JsonDoc.Literal

/-!
# Parse errors

A document breaks its grammar in one of three ways: a byte that does not fit, an end of the input
where more was needed, or a container that is nested too deep.
-/

namespace JsonDoc

/-- What the grammar asks for at a place. -/
inductive Expectation where
  | value
  | literal (word : Literal)
  | openingQuote
  | closingQuote
  | stringCharacter
  | escapeCharacter
  | hexDigit
  | binaryDigit
  | digit
  | fractionDigit
  | exponentDigit
  | delimiterAfterNumber
  | openingBracket
  | commaOrBracket
  | closingBracket
  | valueAfterComma
  | openingBrace
  | commaOrBrace
  | closingBrace
  | keyAfterComma
  | quotedKey
  | key
  | colonAfterKey
  /-- Anything else a caller of the scanner asks for. -/
  | other (text : String)
deriving DecidableEq, Repr

namespace Expectation

/-- The words for an expectation. -/
def text : Expectation → String
  | value => "a value"
  | literal .true => "`true`"
  | literal .false => "`false`"
  | literal .null => "`null`"
  | openingQuote => "'\"'"
  | closingQuote => "a closing '\"'"
  | stringCharacter => "a string character"
  | escapeCharacter => "an escape character"
  | hexDigit => "a hex digit"
  | binaryDigit => "a binary digit"
  | digit => "a digit"
  | fractionDigit => "a fraction digit"
  | exponentDigit => "an exponent digit"
  | delimiterAfterNumber => "a delimiter after the number"
  | openingBracket => "'['"
  | commaOrBracket => "',' or ']'"
  | closingBracket => "']'"
  | valueAfterComma => "a value after ','"
  | openingBrace => "'\x7b'"
  | commaOrBrace => "',' or '\x7d'"
  | closingBrace => "'\x7d'"
  | keyAfterComma => "a key after ','"
  | quotedKey => "a quoted key"
  | key => "a quoted or bare key"
  | colonAfterKey => "':' after key"
  | other text => text

end Expectation

/-- Why a document could not be read. -/
inductive ParseError where
  /-- The byte at the offset breaks the grammar. -/
  | unexpected (offset : Nat) (expected : Expectation)
  /-- The input ended where more was needed; with more bytes the document may still be read. -/
  | overrun (offset : Nat) (expected : Expectation)
  /-- The container that opens at the offset is nested deeper than the limit. -/
  | tooDeep (offset : Nat) (limit : Nat)
deriving DecidableEq, Repr

namespace ParseError

/-- The offset at which the grammar was broken. -/
def offset : ParseError → Nat
  | unexpected offset _ => offset
  | overrun offset _ => offset
  | tooDeep offset _ => offset

/-- Whether the end of the input is the only fault. -/
def isOverrun : ParseError → Bool
  | overrun .. => true
  | _ => false

/-- The sentence that tells the error. -/
def message : ParseError → String
  | unexpected offset expected =>
    "Unexpected input at offset " ++ toString offset ++ ": expected " ++ expected.text
  | overrun offset expected =>
    "Input ended at offset " ++ toString offset ++ " while " ++ expected.text ++
      " was still expected"
  | tooDeep _ limit => "Nesting depth exceeds the configured limit of " ++ toString limit

end ParseError
end JsonDoc
