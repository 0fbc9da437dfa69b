import JsonDoc.Proofs.Binary64.Nearest
import JsonDoc.Decimal.Reading

/-!
# The double nearest to a decimal number

`Decimal.nearest_eq` says that the bounds on powers of ten do not show: the nearest double is that
of the exact quotient. So zeros at the end of the digits can move into the exponent,
`nearest_shift`, and the exact decimal number of a magnitude reads back to it, `nearest_exact`.
-/

namespace JsonDoc
namespace Decimal

theorem placeValue_add
    (a b : Nat) :
    placeValue (a + b) = placeValue a * placeValue b :=
  Nat.pow_add 10 a b

theorem placeValue_eq
    (place : Nat) :
    placeValue place = Nat.pow 5 place * 1 <<< place := by
  rw [Nat.shiftLeft_eq, Nat.one_mul]
  exact Nat.mul_pow 5 2 place

theorem two_pow_le_placeValue
    (place : Nat) :
    2 ^ (3 * place) ≤ placeValue place := by
  induction place with
  | zero =>
      simp
  | succ place ih =>
      rw [Nat.mul_succ, Nat.pow_add, placeValue_succ]
      omega

/-- How many bits stand below one, without their number being worked out. -/
theorem unitsPerOne_eq :
    ∃ bits, bits = 1074 ∧ Binary64.unitsPerOne = 2 ^ bits := by
  have shifted (bits : Nat) : 1 <<< bits = 2 ^ bits := by
    rw [Nat.shiftLeft_eq, Nat.one_mul]
  exact ⟨_, rfl, shifted _⟩

/-- The number in units, as a quotient. -/
def quotient (d : Decimal) : Nat × Nat :=
  (d.digits * placeValue d.exponent.toNat * Binary64.unitsPerOne, placeValue (-d.exponent).toNat)

theorem nearest_of_zero
    (exponent : Int) :
    nearest ⟨0, exponent⟩ = 0 := rfl

/-- A number with a power of ten beyond the bound is too large to be finite. -/
theorem nearest_beyond
    {digits up : Nat}
    (positive : 0 < digits)
    (beyond : exponentBound < up) :
    Binary64.nearest (digits * placeValue up * Binary64.unitsPerOne) 1 =
      Binary64.infinityMagnitude := by
  obtain ⟨k, bits, units⟩ := unitsPerOne_eq
  have many : 2099 ≤ 3 * up + k := by
    unfold exponentBound at beyond
    omega
  have large : 1 <<< (3 * up + k) ≤ digits * placeValue up * Binary64.unitsPerOne / 1 := by
    rw [Nat.shiftLeft_eq, Nat.one_mul, Nat.div_one, Nat.pow_add, units]
    refine Nat.mul_le_mul_right _ ?_
    exact Nat.le_trans (two_pow_le_placeValue up) (Nat.le_mul_of_pos_left _ positive)
  exact Binary64.nearest_of_large many large

/-- A number with too many places after its digits is less than half of a unit. -/
theorem nearest_below
    {digits less : Nat}
    (beyond : digits.log2 + exponentBound < less) :
    Binary64.nearest (digits * Binary64.unitsPerOne) (placeValue (less + 1)) = 0 := by
  obtain ⟨k, bits, units⟩ := unitsPerOne_eq
  have enough : k + (digits.log2 + 1) + 1 ≤ 3 * (less + 1) := by
    unfold exponentBound at beyond
    omega
  have small : 2 * (digits * Binary64.unitsPerOne) < placeValue (less + 1) :=
    calc
      2 * (digits * Binary64.unitsPerOne)
          < 2 ^ (k + (digits.log2 + 1) + 1) := by
        have below : digits < 2 ^ (digits.log2 + 1) := Nat.lt_log2_self
        rw [units, Nat.pow_succ, Nat.pow_add, Nat.mul_comm 2, Nat.mul_comm digits]
        refine Nat.mul_lt_mul_of_pos_right ?_ Nat.two_pos
        exact Nat.mul_lt_mul_of_pos_left below (Nat.two_pow_pos k)
      _ ≤ 2 ^ (3 * (less + 1)) := Nat.pow_le_pow_right Nat.two_pos enough
      _ ≤ placeValue (less + 1) := two_pow_le_placeValue _
  exact Binary64.nearest_of_small small

/-- The bounds on powers of ten change nothing. -/
theorem nearest_eq
    (d : Decimal) :
    d.nearest = Binary64.nearest d.quotient.1 d.quotient.2 := by
  obtain ⟨digits, exponent⟩ := d
  by_cases zero : digits = 0
  · subst zero
    rw [nearest_of_zero]
    refine (Binary64.nearest_of_small ?_).symm
    simp [quotient, placeValue_pos]
  · cases exponent with
    | ofNat up =>
        have same : quotient ⟨digits, .ofNat up⟩ =
            (digits * placeValue up * Binary64.unitsPerOne, 1) := by
          simp [quotient]
        simp only [nearest, if_neg zero, same]
        split
        · rename_i beyond
          exact (nearest_beyond (Nat.pos_of_ne_zero zero) beyond).symm
        · rfl
    | negSucc less =>
        have same : quotient ⟨digits, .negSucc less⟩ =
            (digits * 1 * Binary64.unitsPerOne, placeValue (less + 1)) := rfl
        simp only [nearest, if_neg zero, same, Nat.mul_one]
        split
        · rename_i beyond
          exact (nearest_below beyond).symm
        · rfl

/-- Zeros at the end of the digits can stand in the exponent. -/
theorem nearest_shift
    (digits zeros : Nat)
    (exponent : Int) :
    nearest ⟨digits * placeValue zeros, exponent⟩ = nearest ⟨digits, exponent + zeros⟩ := by
  have places : zeros + exponent.toNat + (-(exponent + zeros)).toNat =
      (exponent + zeros).toNat + (-exponent).toNat := by
    omega
  rw [nearest_eq, nearest_eq]
  refine Binary64.nearest_congr (placeValue_pos _) (placeValue_pos _) ?_
  have value := congrArg placeValue places
  simp only [placeValue_add] at value
  simp only [quotient]
  calc
    _ = digits * Binary64.unitsPerOne * (placeValue zeros * placeValue exponent.toNat *
        placeValue (-(exponent + zeros)).toNat) := by ring
    _ = digits * Binary64.unitsPerOne * (placeValue (exponent + zeros).toNat *
        placeValue (-exponent).toNat) := by rw [value]
    _ = _ := by ring

/-- Powers of five over powers of ten are powers of two. -/
theorem nearest_fifths
    (units places : Nat) :
    nearest ⟨units * Nat.pow 5 places, -(places : Int)⟩ =
      Binary64.nearest (units * Binary64.unitsPerOne) (1 <<< places) := by
  have positive : 0 < 1 <<< places := by
    rw [Nat.shiftLeft_eq, Nat.one_mul]
    exact Nat.two_pow_pos places
  have value : quotient ⟨units * Nat.pow 5 places, -(places : Int)⟩ =
      (units * Nat.pow 5 places * Binary64.unitsPerOne, placeValue places) := by
    simp [quotient]
  rw [nearest_eq, value]
  refine Binary64.nearest_congr (placeValue_pos places) positive ?_
  rw [placeValue_eq]
  ring

/-- The exact decimal number of a finite magnitude reads back to it. -/
theorem nearest_exact
    {magnitude : Nat}
    (finite : magnitude < Binary64.infinityMagnitude) :
    (exact magnitude).nearest = magnitude :=
  calc
    (exact magnitude).nearest
        = Binary64.nearest (Binary64.unitsOf magnitude * Binary64.unitsPerOne)
            Binary64.unitsPerOne := nearest_fifths (Binary64.unitsOf magnitude) 1074
    _ = Binary64.nearest (Binary64.unitsOf magnitude) 1 :=
        Binary64.nearest_congr Binary64.unitsPerOne_pos Nat.one_pos (Nat.mul_one _)
    _ = magnitude := Binary64.nearest_unitsOf finite

end Decimal
end JsonDoc
