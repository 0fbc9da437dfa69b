import JsonDoc.Binary64.Arithmetic

/-!
# Decimal numbers and their nearest doubles

`Decimal.nearest` is the one way from decimal digits to a double, for tokens that are read and
for candidate digits that are tried when a double is written.
-/

namespace JsonDoc

/-- The non-negative number `digits * 10 ^ exponent`. -/
structure Decimal where
  digits : Nat
  exponent : Int
deriving DecidableEq, Repr

namespace Decimal

/-- What a digit counts for that stands `place` places before the units: `10 ^ place`. -/
def placeValue (place : Nat) : Nat := Nat.pow 10 place

@[simp] theorem placeValue_zero :
    placeValue 0 = 1 := rfl

theorem placeValue_succ
    (place : Nat) :
    placeValue (place + 1) = placeValue place * 10 := rfl

theorem placeValue_pos
    (place : Nat) :
    0 < placeValue place := by
  induction place with
  | zero => exact Nat.one_pos
  | succ place ih =>
      rw [placeValue_succ]
      omega

/-- Above this power of ten every number but zero rounds to infinity, and below its inverse every
number rounds to zero. -/
def exponentBound : Nat := 400

/-- The magnitude of the double nearest to a decimal number.

A number with `b` bits is below `10 ^ (b + 1)`, which bounds the powers of ten that have to be
formed. -/
def nearest (d : Decimal) : Nat :=
  if d.digits = 0 then 0
  else
    match d.exponent with
    | .ofNat up =>
      if exponentBound < up then Binary64.infinityMagnitude
      else Binary64.nearest (d.digits * placeValue up * Binary64.unitsPerOne) 1
    | .negSucc less =>
      if d.digits.log2 + exponentBound < less then 0
      else Binary64.nearest (d.digits * Binary64.unitsPerOne) (placeValue (less + 1))

theorem nearest_lt
    (d : Decimal) :
    d.nearest < 0x8000000000000000 := by
  have hb := Binary64.infinityMagnitude_lt
  unfold nearest
  split
  · decide
  · split
    · split
      · exact hb
      · exact Binary64.nearest_lt _ _
    · split
      · decide
      · exact Binary64.nearest_lt _ _

/-- The double nearest to a decimal number. -/
def toBinary64 (d : Decimal) : Binary64 := ⟨false, d.nearest, d.nearest_lt⟩

/-- The decimal number that equals a finite magnitude: `2 ^ (-1074)` is `5 ^ 1074` over
`10 ^ 1074`. -/
def exact (magnitude : Nat) : Decimal :=
  ⟨Binary64.unitsOf magnitude * Nat.pow 5 1074, -1074⟩

end Decimal
end JsonDoc
