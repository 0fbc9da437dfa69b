import JsonDoc.Proofs.Binary64.Equality

/-!
# Quotients of integers

The quotient of two integers of 53 bits is an integer of 53 bits that counts some `2 ^ k`-th parts
of one, `units_div_ofInt`. Rounding such a number to the nearest integer and the difference to it
are exact, so whether the two are equal up to rounding is a comparison of integers,
`approxEq_round_iff`.
-/

namespace JsonDoc
namespace Binary64

variable {x : Binary64} {r s k p : Nat}

/-! ## The nearest integer -/

/-- The integer nearest to `r` parts, of which `p` make one; a half goes up. -/
def nearestInteger (r p : Nat) : Nat := (2 * r + p) / (2 * p)

theorem nearestInteger_near
    (positive : 0 < p) :
    2 * r < 2 * (nearestInteger r p * p) + p ∧ 2 * (nearestInteger r p * p) ≤ 2 * r + p := by
  have whole := Nat.div_add_mod' (2 * r + p) (2 * p)
  have rest := Nat.mod_lt (2 * r + p) (Nat.mul_pos Nat.two_pos positive)
  rw [← nearestInteger, Nat.mul_left_comm] at whole
  omega

/-- It is not farther away than zero. -/
theorem nearestInteger_distance
    (positive : 0 < p) :
    ((r : Int) - nearestInteger r p * p).natAbs ≤ r := by
  obtain ⟨low, high⟩ := nearestInteger_near (r := r) positive
  rw [← Int.natCast_mul]
  rcases Nat.eq_zero_or_pos (nearestInteger r p) with none | some
  · rw [none] at low ⊢
    omega
  · have := Nat.le_mul_of_pos_left p some
    omega

theorem nearestInteger_le
    (positive : 0 < p) :
    nearestInteger r p ≤ r := by
  obtain ⟨_, high⟩ := nearestInteger_near (r := r) positive
  have := Nat.le_mul_of_pos_right (nearestInteger r p) positive
  rcases Nat.eq_zero_or_pos (nearestInteger r p) with none | some
  · omega
  · have := Nat.le_mul_of_pos_left p some
    -- a product of two positive numbers is at least their sum less one
    nlinarith

theorem nearestInteger_mul
    (positive : 0 < p)
    (n : Nat) :
    nearestInteger (n * p) p = n := by
  have split : 2 * (n * p) + p = p + n * (2 * p) := by ring
  rw [nearestInteger, split, Nat.add_mul_div_right _ _ (by omega), Nat.div_eq_of_lt (by omega),
    Nat.zero_add]

/-! ## Rounding -/

theorem unitsPerOne_eq
    (split : s + k = 1074) :
    unitsPerOne = 2 ^ k * 2 ^ s := by
  have general (m : Nat) (h : s + k = m) : 1 <<< m = 2 ^ k * 2 ^ s := by
    rw [Nat.shiftLeft_eq, Nat.one_mul, ← h, Nat.add_comm, Nat.pow_add]
  exact general 1074 split

theorem integer_units
    (units : x.units = r <<< s)
    (split : s + k = 1074) :
    (2 * x.units + unitsPerOne) / (2 * unitsPerOne) = nearestInteger r (2 ^ k) := by
  have num : 2 * (r * 2 ^ s) + 2 ^ k * 2 ^ s = (2 * r + 2 ^ k) * 2 ^ s := by ring
  rw [units, unitsPerOne_eq split, Nat.shiftLeft_eq, num, ← Nat.mul_assoc,
    Nat.mul_div_mul_right _ _ (Nat.two_pow_pos s), nearestInteger]

theorem round_eq
    (finite : x.isFinite)
    (units : x.units = r <<< s)
    (split : s + k = 1074) :
    x.round = ofUnits x.negative (nearestInteger r (2 ^ k) * unitsPerOne) 1 := by
  rw [round, if_pos finite, integer_units units split]

section Steps

variable {n : Nat} (units : x.units = r <<< s) (split : s + k = 1074)
include units split

/-- The exact difference to an integer, in steps of `s` bits. -/
theorem natAbs_sub_integer
    {y : Binary64}
    (sign : x.negative = y.negative)
    (integer : y.units = n * unitsPerOne) :
    (x.signedUnits - y.signedUnits).natAbs = ((r : Int) - n * (2 ^ k : Nat)).natAbs <<< s := by
  have shifted : ((r * 2 ^ s : Nat) : Int) - (n * (2 ^ k * 2 ^ s) : Nat) =
      ((r : Int) - n * (2 ^ k : Nat)) * (2 ^ s : Nat) := by
    push_cast
    ring
  rw [natAbs_sub_signedUnits sign, units, integer, unitsPerOne_eq split, Nat.shiftLeft_eq, shifted,
    Int.natAbs_mul, Int.natAbs_natCast, Nat.shiftLeft_eq]

theorem scale_integer
    {y : Binary64}
    (integer : y.units = n * unitsPerOne) :
    scale x y = Max.max (Max.max r (n * 2 ^ k)) (2 ^ k) * 2 ^ s := by
  rw [scale, units, integer, unitsPerOne_eq split, Nat.shiftLeft_eq, ← Nat.mul_assoc,
    Nat.mul_max_mul_right, Nat.mul_max_mul_right]

end Steps

/-- A number of `r` parts of one equals its nearest integer if the parts in excess are at most
`1 / binade` of the larger one of both. -/
theorem approxEq_round_iff
    (finite : x.isFinite)
    (units : x.units = r <<< s)
    (split : s + k = 1074)
    (few : r ≤ 2 * binade) :
    x.approxEq x.round ↔
      binade * ((r : Int) - nearestInteger r (2 ^ k) * (2 ^ k : Nat)).natAbs ≤
        Max.max (Max.max r (nearestInteger r (2 ^ k) * 2 ^ k)) (2 ^ k) := by
  have positive := Nat.two_pow_pos k
  have near := nearestInteger_distance (r := r) positive
  have least := nearestInteger_le (r := r) positive
  rw [round_eq finite units split]
  generalize nearestInteger r (2 ^ k) = n at near least ⊢
  obtain ⟨finite', integer⟩ := units_ofUnits_one x.negative (Nat.le_trans least few)
  have sign := (negative_ofUnits x.negative (n * unitsPerOne) 1).symm
  obtain ⟨_, exact⟩ := unitsOf_nearest_shiftLeft (s := s) (by omega) (Nat.le_trans near few)
  rw [approxEq_iff_of_finite finite finite', (units_sub finite finite').2,
    natAbs_sub_integer units split sign integer, exact, scale_integer units split integer,
    Nat.shiftLeft_eq, ← Nat.mul_assoc, Nat.mul_le_mul_right_iff (Nat.two_pow_pos s)]

/-! ## Division -/

theorem isZero_of_units
    (nonzero : x.units ≠ 0) :
    x.isZero = false := by
  rw [← Bool.not_eq_true, isZero_iff_units]
  exact nonzero

theorem div_eq
    {y : Binary64}
    (hx : x.isFinite)
    (hy : y.isFinite)
    (nonzero : y.units ≠ 0) :
    x.div y = ofUnits (x.negative != y.negative) (x.units * unitsPerOne) y.units := by
  simp only [div, not_isNaN_of_isFinite hx, not_isNaN_of_isFinite hy,
    not_isInfinite_of_isFinite hx, not_isInfinite_of_isFinite hy, isZero_of_units nonzero,
    Bool.or_self, Bool.false_eq_true, if_false]

theorem surplusBits_quotient
    {n : Nat}
    (hn : n < 2 * binade)
    (d : Nat) :
    surplusBits (n * unitsPerOne / d) ≤ 1074 := by
  refine surplusBits_le (Nat.lt_of_le_of_lt (Nat.div_le_self _ _) ?_)
  rw [← mul_unitsPerOne]
  exact Nat.mul_lt_mul_of_pos_right hn unitsPerOne_pos

theorem nearest_quotient
    (n d : Nat) :
    nearest (n * unitsPerOne * unitsPerOne) (d * unitsPerOne) = nearest (n * unitsPerOne) d := by
  rw [Nat.mul_comm _ unitsPerOne, Nat.mul_comm d, nearest_mul unitsPerOne_pos]

theorem div_ofInt
    {n d : Int}
    (hn : n.natAbs < 2 * binade)
    (hd : d.natAbs < 2 * binade)
    (nonzero : d ≠ 0) :
    ∃ negative, (ofInt n).div (ofInt d) =
      ofUnits negative (n.natAbs * unitsPerOne * unitsPerOne) (d.natAbs * unitsPerOne) := by
  obtain ⟨finite, units⟩ := units_ofInt (Nat.le_of_lt hn)
  obtain ⟨finite', units'⟩ := units_ofInt (Nat.le_of_lt hd)
  have some : (ofInt d).units ≠ 0 := by
    rw [units']
    exact Nat.ne_of_gt (Nat.mul_pos (Int.natAbs_pos.mpr nonzero) unitsPerOne_pos)
  rw [div_eq finite finite' some, units, units']
  exact ⟨_, rfl⟩

/-- The quotient of two integers is an integer of 53 bits, shifted. -/
theorem units_div_ofInt
    {n d : Int}
    (hn : n.natAbs < 2 * binade)
    (hd : d.natAbs < 2 * binade)
    (nonzero : d ≠ 0) :
    ((ofInt n).div (ofInt d)).isFinite ∧
      ((ofInt n).div (ofInt d)).units =
        kept (n.natAbs * unitsPerOne) d.natAbs <<<
          surplusBits (n.natAbs * unitsPerOne / d.natAbs) := by
  have few : surplusBits (n.natAbs * unitsPerOne / d.natAbs) ≤ 2044 :=
    Nat.le_trans (surplusBits_quotient hn _) (by decide)
  obtain ⟨negative, quotient⟩ := div_ofInt hn hd nonzero
  rw [quotient, units_ofUnits, nearest_quotient, unitsOf_nearest few]
  refine ⟨isFinite_ofUnits _ ?_, rfl⟩
  rw [nearest_quotient]
  exact (nearest_eq_binades few).2

end Binary64
end JsonDoc
