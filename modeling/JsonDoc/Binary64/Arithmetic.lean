import JsonDoc.Binary64.Basic

/-!
# Rounding and arithmetic

Every operation works out its exact result as a quotient of natural numbers, counted in units,
and rounds it once. The one rounding function is `Binary64.nearest`: to the nearest magnitude,
a tie to the even one, and to infinity past the largest finite number.
-/

namespace JsonDoc
namespace Binary64

/-- The integer nearest to a quotient, a tie going to the even neighbour. -/
def roundDivEven (num den : Nat) : Nat :=
  let quotient := num / den
  let twice := 2 * (num % den)
  if den < twice ∨ (twice = den ∧ quotient % 2 = 1) then quotient + 1 else quotient

/-- How many bits a value of `whole` units has beyond the 53 that a magnitude keeps. -/
def surplusBits (whole : Nat) : Nat := whole.log2 - 52

/-- The magnitude nearest to `num / den` units.

With `k` surplus bits the kept integer counts steps of `2 ^ k` units. Adding `k` binades to it
gives the magnitude, and an integer that was rounded up to `2 ^ 53` carries into the next binade
by itself. -/
def nearest (num den : Nat) : Nat :=
  let surplus := surplusBits (num / den)
  min (surplus * binade + roundDivEven num (den <<< surplus)) infinityMagnitude

theorem nearest_lt
    (num den : Nat) :
    nearest num den < 0x8000000000000000 :=
  Nat.lt_of_le_of_lt (Nat.min_le_right _ _) infinityMagnitude_lt

/-- The number of the given sign nearest to `num / den` units. -/
def ofUnits (negative : Bool) (num den : Nat) : Binary64 :=
  ⟨negative, nearest num den, nearest_lt num den⟩

/-- The number nearest to an integer. -/
def ofInt (n : Int) : Binary64 := ofUnits (decide (n < 0)) (n.natAbs * unitsPerOne) 1

/-- The sum. An exact zero is negative only when both terms are. -/
def add (x y : Binary64) : Binary64 :=
  if x.isNaN || y.isNaN then nan
  else if x.isInfinite then
    if y.isInfinite && x.negative != y.negative then nan else x
  else if y.isInfinite then y
  else
    let total := x.signedUnits + y.signedUnits
    if total = 0 then ofUnits (x.negative && y.negative) 0 1
    else ofUnits (decide (total < 0)) total.natAbs 1

/-- The difference. -/
def sub (x y : Binary64) : Binary64 := x.add y.neg

/-- The product. -/
def mul (x y : Binary64) : Binary64 :=
  let negative := x.negative != y.negative
  if x.isNaN || y.isNaN then nan
  else if x.isInfinite || y.isInfinite then
    if x.isZero || y.isZero then nan else infinity negative
  else ofUnits negative (x.units * y.units) unitsPerOne

/-- The quotient. -/
def div (x y : Binary64) : Binary64 :=
  let negative := x.negative != y.negative
  if x.isNaN || y.isNaN then nan
  else if x.isInfinite then
    if y.isInfinite then nan else infinity negative
  else if y.isInfinite then ofUnits negative 0 1
  else if y.isZero then
    if x.isZero then nan else infinity negative
  else ofUnits negative (x.units * unitsPerOne) y.units

/-- The nearest integer, a half going away from zero. -/
def round (x : Binary64) : Binary64 :=
  if x.isFinite then
    ofUnits x.negative ((2 * x.units + unitsPerOne) / (2 * unitsPerOne) * unitsPerOne) 1
  else x

/-- Equality up to the rounding of one operation: the difference is at most `epsilon` times the
larger absolute value, and `epsilon` itself between numbers below one. -/
def approxEq (x y : Binary64) : Bool :=
  x.numEq y ||
    (x.sub y).abs.le (epsilon.mul ((x.abs.max y.abs).max one))

end Binary64
end JsonDoc
