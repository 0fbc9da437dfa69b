/-!
# Double-precision numbers

A number is kept as its sign bit and the 63 bits after it, so that every bit pattern has exactly
one value here, the many NaNs included.

Two views carry all reasoning.

* `Binary64.rank` places every number that is not a NaN on the integer line, in the order of its
  value; the two zeros share rank 0. Comparisons are comparisons of ranks.
* `Binary64.units` counts a finite magnitude in units of `2 ^ (-1074)`, the distance between the
  two smallest numbers. Every finite magnitude is a whole number of units.
-/

namespace JsonDoc

/-- A binary floating-point number of 64 bits: a sign bit and the 63 bits after it. -/
structure Binary64 where
  /-- The sign bit. -/
  negative : Bool
  /-- Biased exponent (11 bits) and fraction (52 bits), read as one natural number. -/
  magnitude : Nat
  magnitude_lt : magnitude < 0x8000000000000000
deriving DecidableEq, Repr

namespace Binary64

/-- The magnitude of the infinities; larger magnitudes are NaNs. -/
def infinityMagnitude : Nat := 0x7ff0000000000000

theorem infinityMagnitude_lt :
    infinityMagnitude < 0x8000000000000000 := by decide

/-! ## Bit patterns -/

/-- The number with the given bits; only the low 64 count. -/
def ofBits (bits : Nat) : Binary64 where
  negative := bits / 0x8000000000000000 % 2 == 1
  magnitude := bits % 0x8000000000000000
  magnitude_lt := Nat.mod_lt _ (by decide)

/-- The 64 bits as a natural number. -/
def toBits (x : Binary64) : Nat :=
  (if x.negative then 0x8000000000000000 else 0) + x.magnitude

@[simp] theorem ofBits_toBits
    (x : Binary64) :
    ofBits x.toBits = x := by
  obtain ⟨negative, magnitude, h⟩ := x
  cases negative <;> simp [ofBits, toBits] <;> omega

instance : Inhabited Binary64 := ⟨ofBits 0⟩

def zero : Binary64 := ofBits 0

def one : Binary64 := ofBits 0x3ff0000000000000

/-- The distance from one to the next number, `2 ^ (-52)`. -/
def epsilon : Binary64 := ofBits 0x3cb0000000000000

def nan : Binary64 := ofBits 0x7ff8000000000000

/-- The infinity of the given sign. -/
def infinity (negative : Bool) : Binary64 := ⟨negative, infinityMagnitude, infinityMagnitude_lt⟩

/-! ## Classes -/

def isNaN (x : Binary64) : Bool := decide (infinityMagnitude < x.magnitude)

def isInfinite (x : Binary64) : Bool := x.magnitude == infinityMagnitude

def isFinite (x : Binary64) : Bool := decide (x.magnitude < infinityMagnitude)

def isZero (x : Binary64) : Bool := x.magnitude == 0

/-! ## Sign -/

/-- The number with its sign bit flipped. -/
def neg (x : Binary64) : Binary64 := { x with negative := !x.negative }

/-- The number with its sign bit cleared. -/
def abs (x : Binary64) : Binary64 := { x with negative := false }

@[simp] theorem neg_neg
    (x : Binary64) :
    x.neg.neg = x := by
  simp [neg]

@[simp] theorem magnitude_abs
    (x : Binary64) :
    x.abs.magnitude = x.magnitude := rfl

/-! ## Order -/

/-- The place of a number on the integer line; ranks are ordered as the values are. -/
def rank (x : Binary64) : Int :=
  if x.negative then -(x.magnitude : Int) else x.magnitude

/-- Equality of values: the zeros are equal, and a NaN equals nothing. -/
def numEq (x y : Binary64) : Bool :=
  !x.isNaN && !y.isNaN && x.rank == y.rank

/-- Less than; false if either side is a NaN. -/
def lt (x y : Binary64) : Bool :=
  !x.isNaN && !y.isNaN && decide (x.rank < y.rank)

/-- At most; false if either side is a NaN. -/
def le (x y : Binary64) : Bool :=
  !x.isNaN && !y.isNaN && decide (x.rank ≤ y.rank)

/-- The larger number; a NaN gives way to the other side. -/
def max (x y : Binary64) : Binary64 :=
  if x.isNaN then y else if y.isNaN then x else if x.rank ≤ y.rank then y else x

theorem numEq_self
    {x : Binary64}
    (h : x.isNaN = false) :
    x.numEq x = true := by
  simp [numEq, h]

/-! ## Units -/

/-- How many units make one. -/
def unitsPerOne : Nat := 1 <<< 1074

theorem unitsPerOne_pos :
    0 < unitsPerOne := by decide

/-- The number of magnitudes that share an exponent, one for each fraction. -/
def binade : Nat := 0x10000000000000

/-- Below this bound every integer is the value of a number. -/
def exactIntegerBound : Nat := 0x20000000000000

/-- The units of a finite magnitude: the fraction alone below the normal numbers, else the
fraction with its leading bit, shifted by the exponent. -/
def unitsOf (magnitude : Nat) : Nat :=
  if magnitude < binade then magnitude
  else (binade + magnitude % binade) <<< (magnitude / binade - 1)

/-- The absolute value of a finite number in units. -/
def units (x : Binary64) : Nat := unitsOf x.magnitude

/-- The value of a finite number in units. -/
def signedUnits (x : Binary64) : Int :=
  if x.negative then -(x.units : Int) else x.units

/-- Whether the number is finite and has no fractional part. -/
def isIntegral (x : Binary64) : Bool :=
  x.isFinite && x.units % unitsPerOne == 0

/-- The integer part of a finite number, cut toward zero. -/
def truncate (x : Binary64) : Int :=
  if x.negative then -((x.units / unitsPerOne : Nat) : Int) else (x.units / unitsPerOne : Nat)

end Binary64
end JsonDoc
