import JsonDoc.Decimal.Reading
import JsonDoc.Text.Hex

/-!
# The value of a number token

`NumberText.value?` reads the tokens of both grammars. Decimal tokens are rounded once, to the
nearest double. Tokens of another base are read digit by digit, with each step rounded.
-/

namespace JsonDoc
namespace NumberText

def isExponentMark (c : Char) : Bool := c == 'e' || c == 'E'

def isSign (c : Char) : Bool := c == '+' || c == '-'

def isOctalDigit (c : Char) : Bool := decide ('0' ≤ c) && decide (c ≤ '7')

/-- The number that decimal digits spell. -/
def ofDigits (digits : List Char) : Nat := Nat.ofDigitChars 10 digits 0

/-- The exponent after its mark: an optional sign and at least one digit. -/
def exponent? (chars : List Char) : Option Int :=
  let (negative, digits) := match chars with
    | '-' :: digits => (true, digits)
    | '+' :: digits => (false, digits)
    | digits => (false, digits)
  if !digits.isEmpty && digits.all Char.isDigit then
    some (if negative then -(ofDigits digits : Int) else ofDigits digits)
  else none

/-- Digits, an optional fraction and an optional exponent, to the end of the text. One digit must
stand before or after the point. -/
def decimal? (chars : List Char) : Option Decimal :=
  let whole := chars.takeWhile Char.isDigit
  let afterWhole := chars.dropWhile Char.isDigit
  let (fraction, rest) := match afterWhole with
    | '.' :: after => (after.takeWhile Char.isDigit, after.dropWhile Char.isDigit)
    | after => ([], after)
  if whole.isEmpty && fraction.isEmpty then none
  else
    let exponent := match rest with
      | [] => some 0
      | c :: after => if isExponentMark c then exponent? after else none
    exponent.map fun e => ⟨ofDigits (whole ++ fraction), e - fraction.length⟩

/-- The text without the signs and then without the exponent marks at its end. -/
def withoutOpenExponent (chars : List Char) : List Char :=
  ((chars.reverse.dropWhile isSign).dropWhile isExponentMark).reverse

/-- One more digit of a base, with the product and the sum rounded. -/
def pushDigit (base : Nat) (total : Binary64) (c : Char) : Option Binary64 :=
  match Hex.digit? c with
  | none => none
  | some digit =>
    if digit < base then some ((total.mul (Binary64.ofInt base)).add (Binary64.ofInt digit))
    else none

/-- The value of the digits of a base. -/
def radix? (base : Nat) (digits : List Char) : Option Binary64 :=
  if digits.isEmpty then none else digits.foldlM (pushDigit base) Binary64.zero

/-- The value of a token without its sign. -/
def magnitude? (body : List Char) : Option Binary64 :=
  let number := withoutOpenExponent body
  let decimal :=
    if number.head?.any Char.isDigit then (decimal? number).map Decimal.toBinary64 else none
  match body with
  | '0' :: c :: digits =>
    if c = 'x' ∨ c = 'X' then radix? 16 digits
    else if c = 'b' ∨ c = 'B' then radix? 2 digits
    else if (c :: digits).all isOctalDigit then radix? 8 (c :: digits)
    else decimal
  | _ => decimal

/-- The value of a token. -/
def value? : List Char → Option Binary64
  | '-' :: body => (magnitude? body).map Binary64.neg
  | '+' :: body => magnitude? body
  | body => magnitude? body

end NumberText
end JsonDoc
