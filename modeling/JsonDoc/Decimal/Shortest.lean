import JsonDoc.Decimal.Reading

/-!
# The fewest digits that read back

`Decimal.shortest` finds, for a finite magnitude above zero, a decimal number of the fewest digits
whose nearest double is that magnitude, and of those the nearest one. For each number of digits it
is enough to try the two neighbours of the exact value on the grid of that many digits.
-/

namespace JsonDoc

/-- Which of two equally near neighbours is written. -/
inductive Tie where
  | up
  | even
deriving DecidableEq, Repr

namespace Decimal

/-- The number of decimal digits. -/
def digitCount (n : Nat) : Nat := (Nat.toDigits 10 n).length

/-- The exponent of the leading decimal digit of `units` units. -/
def leadingExponent (units : Nat) : Int :=
  if Binary64.unitsPerOne ≤ units then
    (digitCount (units / Binary64.unitsPerOne) : Int) - 1
  else
    -(digitCount ((Binary64.unitsPerOne - 1) / units) : Int)

/-- The value of `units` units over `10 ^ exponent`, as numerator and denominator. -/
def onGrid (units : Nat) (exponent : Int) : Nat × Nat :=
  match exponent with
  | .ofNat up => (units, Binary64.unitsPerOne * placeValue up)
  | .negSucc less => (units * placeValue (less + 1), Binary64.unitsPerOne)

/-- The two neighbours of `units` units on the grid of `count` digits, the nearer one first. -/
def neighbours (tie : Tie) (units count : Nat) : Decimal × Decimal :=
  let exponent := leadingExponent units + 1 - count
  let (num, den) := onGrid units exponent
  let lower : Decimal := ⟨num / den, exponent⟩
  let upper : Decimal := ⟨num / den + 1, exponent⟩
  let twice := 2 * (num % den)
  if den < twice ∨ (twice = den ∧ (tie = .up ∨ num / den % 2 = 1)) then (upper, lower)
  else (lower, upper)

/-- A decimal number, if it reads back to the magnitude. -/
def reading? (magnitude : Nat) (d : Decimal) : Option Decimal :=
  if d.nearest = magnitude then some d else none

/-- The nearer neighbour on the grid of `count` digits that reads back, if one does. -/
def withDigits? (tie : Tie) (magnitude count : Nat) : Option Decimal :=
  let pair := neighbours tie (Binary64.unitsOf magnitude) count
  (reading? magnitude pair.1).or (reading? magnitude pair.2)

theorem nearest_of_reading?
    {magnitude : Nat} {c d : Decimal}
    (h : reading? magnitude c = some d) :
    d.nearest = magnitude := by
  unfold reading? at h
  split at h <;> simp_all

theorem nearest_of_withDigits?
    {tie : Tie} {magnitude count : Nat} {d : Decimal}
    (h : withDigits? tie magnitude count = some d) :
    d.nearest = magnitude := by
  simp only [withDigits?, Option.or_eq_some_iff] at h
  rcases h with h | ⟨_, h⟩ <;> exact nearest_of_reading? h

/-- The fewest digits, at most 17, that read back to a finite magnitude above zero. -/
def shortest (tie : Tie) (magnitude : Nat) : Decimal :=
  ((List.range 17).findSome? fun i => withDigits? tie magnitude (i + 1)).getD (exact magnitude)

end Decimal
end JsonDoc
