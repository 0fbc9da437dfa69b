import JsonDoc.Decimal.Shortest

/-!
# Number texts

A `Decimal.Layout` holds every decision of a number format that the digits leave open.
`Binary64.write` writes a double in a layout. Each format that writes numbers declares its own
layout beside its writer.
-/

namespace JsonDoc

namespace Decimal

/-- The decisions of a number format. -/
structure Layout where
  /-- Which of two equally near digit strings is written. -/
  tie : Tie
  /-- The least and the greatest exponent of a leading digit that is written without an exponent;
  none writes every number so. -/
  positional : Option (Int × Int)
  /-- Whether a number without a fraction that is written without exponent ends in `.0`. -/
  fraction : Bool
  /-- What stands before an exponent that is not negative. -/
  exponentSign : String
  infinity : String
  negativeInfinity : String
  nan : String

/-- The digits of a natural number without the zeros at its end. -/
def significant (n : Nat) : List Char :=
  ((Nat.toDigits 10 n).reverse.dropWhile (· == '0')).reverse

/-- Digits around a decimal point that stands after the first `point` of them. -/
def writePositional (fraction : Bool) (digits : List Char) (point : Int) : String :=
  if point ≤ 0 then
    String.ofList ('0' :: '.' :: (List.replicate (-point).toNat '0' ++ digits))
  else
    let whole := point.toNat
    if digits.length ≤ whole then
      String.ofList (digits ++ List.replicate (whole - digits.length) '0') ++
        (if fraction then ".0" else "")
    else
      String.ofList (digits.take whole ++ '.' :: digits.drop whole)

/-- One digit, the others after a point, and the exponent of the first one. -/
def writeScientific (exponentSign : String) (digits : List Char) (exponent : Int) : String :=
  let mantissa := match digits with
    | [] => []
    | [d] => [d]
    | d :: more => d :: '.' :: more
  String.ofList mantissa ++ "e" ++ (if exponent < 0 then "-" else exponentSign) ++
    toString exponent.natAbs

/-- The text of a decimal number above zero. -/
def write (layout : Layout) (d : Decimal) : String :=
  let digits := significant d.digits
  let point := (digitCount d.digits : Int) + d.exponent
  let positional := match layout.positional with
    | none => true
    | some (low, high) => decide (low ≤ point - 1) && decide (point - 1 ≤ high)
  if positional then writePositional layout.fraction digits point
  else writeScientific layout.exponentSign digits (point - 1)

end Decimal

namespace Binary64

/-- The text of a number in a layout, with the fewest digits that read back. -/
def write (layout : Decimal.Layout) (x : Binary64) : String :=
  if x.isNaN then layout.nan
  else if x.isInfinite then (if x.negative then layout.negativeInfinity else layout.infinity)
  else
    (if x.negative then "-" else "") ++
      (if x.isZero then (if layout.fraction then "0.0" else "0")
       else (Decimal.shortest layout.tie x.magnitude).write layout)

end Binary64
end JsonDoc
