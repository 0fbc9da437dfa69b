import JsonDoc.Proofs.Binary64.Neighbours
import JsonDoc.Proofs.Binary64.Quotient
import JsonDoc.Proofs.Decimal.Reading

/-!
# Integers that are summed up digit by digit

A total of fewer than 54 bits takes one more digit of a base without an error beyond the rounding of
the result. A total of 54 bits or more has been rounded already, and its last bit counts for more
than all digits after it: it takes none of them. So the sum is the number nearest to an integer in
which zeros stand in place of those digits, `ofInt_push`.
-/

namespace JsonDoc
namespace Binary64

variable {x y : Binary64} {n b digit : Nat}

/-! ## Operations without signs -/

namespace Unsigned

theorem add_eq
    (h : x.Unsigned)
    (k : y.Unsigned)
    (hx : x.isFinite)
    (hy : y.isFinite) :
    x.add y = ofUnits false (x.units + y.units) 1 := by
  have total : x.signedUnits + y.signedUnits = (x.units + y.units : Nat) := by
    rw [h.signedUnits, k.signedUnits, Int.natCast_add]
  simp only [Binary64.add, h.notNaN, k.notNaN, h.noSign, not_isInfinite_of_isFinite hx,
    not_isInfinite_of_isFinite hy, total, Bool.or_self, Bool.false_and, Bool.false_eq_true,
    if_false,
    Int.natAbs_natCast]
  split
  · rename_i zero
    rw [Int.natCast_eq_zero.mp zero]
  · rw [decide_eq_false (Int.not_lt.mpr (Int.natCast_nonneg _))]

theorem mul_eq
    (h : x.Unsigned)
    (k : y.Unsigned)
    (hx : x.isFinite)
    (hy : y.isFinite) :
    x.mul y = ofUnits false (x.units * y.units) unitsPerOne := by
  simp only [Binary64.mul, h.notNaN, k.notNaN, h.noSign, k.noSign, not_isInfinite_of_isFinite hx,
    not_isInfinite_of_isFinite hy, Bool.or_self, bne_self_eq_false, Bool.false_eq_true, if_false]

end Unsigned

theorem isInfinite_infinity
    (negative : Bool) :
    (infinity negative).isInfinite := beq_self_eq_true _

theorem infinity_add
    (hy : y.isFinite) :
    (infinity false).add y = infinity false := by
  simp only [add, isNaN_infinity, not_isNaN_of_isFinite hy, not_isInfinite_of_isFinite hy,
    isInfinite_infinity, Bool.or_self, Bool.false_and, Bool.false_eq_true, if_false, if_true]

theorem infinity_mul
    (k : y.Unsigned)
    (hy : y.isFinite)
    (nonzero : y.units ≠ 0) :
    (infinity false).mul y = infinity false := by
  have infinite : (infinity false).isZero = false := by decide
  have noSign : (infinity false).negative = false := rfl
  simp only [mul, isNaN_infinity, not_isNaN_of_isFinite hy, isInfinite_infinity, infinite, noSign,
    isZero_of_units nonzero, k.noSign, Bool.or_self, Bool.true_or, Bool.false_eq_true, if_false,
    if_true, bne_self_eq_false]

/-! ## The numbers nearest to integers -/

theorem ofInt_natCast
    (n : Nat) :
    ofInt n = ofUnits false (n * unitsPerOne) 1 := by
  rw [ofInt, decide_eq_false (Int.not_lt.mpr (Int.natCast_nonneg _)), Int.natAbs_natCast]

/-- Numbers are the same if the nearest magnitudes are. -/
theorem ofUnits_inj
    {num den num' den' : Nat} :
    ofUnits false num den = ofUnits false num' den' ↔ nearest num den = nearest num' den' := by
  simp only [ofUnits, mk.injEq, true_and]

theorem ofUnits_of_large
    {units : Nat}
    (large : infinityMagnitude ≤ rounded units) :
    ofUnits false units 1 = infinity false := by
  simp only [ofUnits, infinity, nearest_eq_rounded, Nat.min_eq_right large]

theorem ofUnits_of_small
    {units : Nat}
    (small : rounded units < infinityMagnitude) :
    (ofUnits false units 1).isFinite ∧ (ofUnits false units 1).magnitude = rounded units ∧
      (ofUnits false units 1).units = unitsOf (rounded units) := by
  have magnitude : nearest units 1 = rounded units := by
    rw [nearest_eq_rounded, Nat.min_eq_left (Nat.le_of_lt small)]
  exact ⟨isFinite_ofUnits _ (magnitude ▸ small), magnitude, congrArg unitsOf magnitude⟩

theorem two_pow_units
    (b : Nat) :
    2 ^ (1075 + b) = 2 * (2 ^ b * unitsPerOne) := by
  obtain ⟨bits, value, units⟩ := Decimal.unitsPerOne_eq
  have split : 1075 + b = b + bits + 1 := by omega
  rw [units, split, Nat.pow_succ, Nat.pow_add]
  ring

/-- From 54 bits on an integer has 1076 binades before it. -/
theorem binades_le_rounded
    (large : exactIntegerBound * 2 ^ b ≤ n) :
    (1076 + b) * binade ≤ rounded (n * unitsPerOne) := by
  have units : unitsOf ((1075 + b) * binade + binade) =
      exactIntegerBound * 2 ^ b * unitsPerOne := by
    have bound : exactIntegerBound = binade * 2 := by decide
    rw [unitsOf_binades (.inr (Nat.le_refl _)) (by omega), Nat.shiftLeft_eq, two_pow_units, bound]
    ring
  have split : (1076 + b) * binade = (1075 + b) * binade + binade := by ring
  rw [split, ← rounded_unitsOf ((1075 + b) * binade + binade), units]
  exact rounded_mono (Nat.mul_le_mul_right _ large)

/-- Beyond 54 bits a digit is less than one half of the last bit. -/
theorem rounded_add_digit
    {k : Nat}
    (large : (1076 + b) * binade ≤ k)
    (small : digit < 2 ^ b) :
    rounded (unitsOf k + digit * unitsPerOne) = k := by
  have split : (1076 + b) = 1075 + b + 1 := by ring
  rw [split] at large
  have steps := two_pow_dvd_unitsOf large
  have stepsNext := two_pow_dvd_unitsOf (Nat.le_succ_of_le large)
  have less := unitsOf_strictMono (show k < k + 1 from Nat.lt_succ_self k)
  have step : 2 ^ (1075 + b) ≤ unitsOf (k + 1) - unitsOf k :=
    Nat.le_of_dvd (by omega) (Nat.dvd_sub stepsNext steps)
  have below := Nat.mul_lt_mul_of_pos_right small unitsPerOne_pos
  rw [two_pow_units] at step
  exact rounded_eq (Nat.le_add_right _ _) (by omega)

/-! ## One more digit -/

/-- A total with one more digit, which counts only as long as the total has fewer than 54 bits. -/
def push (b total digit : Nat) : Nat :=
  if total < exactIntegerBound then total * 2 ^ b + digit else total * 2 ^ b

section Base

variable (few : b ≤ 4)
include few

theorem base_le :
    2 ^ b ≤ 2 * binade :=
  Nat.le_trans (Nat.pow_le_pow_right (by decide) few) (by decide)

theorem ofInt_base :
    (ofInt (2 ^ b : Nat)).isFinite ∧ (ofInt (2 ^ b : Nat)).units = 2 ^ b * unitsPerOne :=
  units_ofInt (base_le few)

theorem ofInt_digit
    (small : digit < 2 ^ b) :
    (ofInt digit).isFinite ∧ (ofInt digit).units = digit * unitsPerOne :=
  units_ofInt (Nat.le_of_lt (Nat.lt_of_lt_of_le small (base_le few)))

/-- The product of a total with the base is exact, and infinite if the total is. -/
theorem ofInt_mul_base
    (total : Nat) :
    (ofInt total).mul (ofInt (2 ^ b : Nat)) = ofInt (total * 2 ^ b : Nat) := by
  obtain ⟨finiteBase, unitsBase⟩ := ofInt_base few
  rw [ofInt_natCast (total * 2 ^ b)]
  have finiteCase (finite : (ofInt total).isFinite)
      (same : nearest ((ofInt total).units * 2 ^ b) 1 = nearest (total * 2 ^ b * unitsPerOne) 1) :
      (ofInt total).mul (ofInt (2 ^ b : Nat)) = ofUnits false (total * 2 ^ b * unitsPerOne) 1 := by
    rw [(unsigned_ofInt _).mul_eq (unsigned_ofInt _) finite finiteBase, unitsBase]
    refine ofUnits_inj.mpr (Eq.trans (nearest_congr unitsPerOne_pos Nat.one_pos ?_) same)
    ring
  have shifted : total * 2 ^ b * unitsPerOne = total * unitsPerOne * 2 ^ b := by ring
  by_cases small : total < exactIntegerBound
  · obtain ⟨finite, units⟩ := units_ofInt (show (total : Int).natAbs ≤ 2 * binade from
      Nat.le_of_lt small)
    refine finiteCase finite ?_
    rw [units, shifted, Int.natAbs_natCast]
  · have binades : (1076 + 0) * binade ≤ rounded (total * unitsPerOne) :=
      binades_le_rounded (by omega)
    have scaled : rounded (total * 2 ^ b * unitsPerOne) =
        rounded (total * unitsPerOne) + b * binade := by
      have bound : binade ≤ exactIntegerBound := by decide
      have one := Nat.le_mul_of_pos_right total unitsPerOne_pos
      rw [shifted, rounded_mul_two_pow (by omega)]
    by_cases infinite : infinityMagnitude ≤ rounded (total * unitsPerOne)
    · have nonzero : (ofInt (2 ^ b : Nat)).units ≠ 0 := by
        rw [unitsBase]
        exact Nat.ne_of_gt (Nat.mul_pos (Nat.two_pow_pos b) unitsPerOne_pos)
      rw [ofInt_natCast total, ofUnits_of_large infinite,
        infinity_mul (unsigned_ofInt _) finiteBase nonzero, ofUnits_of_large (by omega)]
    · obtain ⟨finite, _, units⟩ := ofUnits_of_small (Nat.lt_of_not_le infinite)
      rw [← ofInt_natCast] at finite units
      refine finiteCase finite ?_
      rw [units, ← unitsOf_add_binades (by omega), nearest_eq_rounded, nearest_eq_rounded,
        rounded_unitsOf, scaled]

/-- A small total takes the digit. -/
theorem ofInt_add_digit
    {total : Nat}
    (exact : total < exactIntegerBound)
    (small : digit < 2 ^ b) :
    (ofInt (total * 2 ^ b : Nat)).add (ofInt digit) = ofInt (total * 2 ^ b + digit : Nat) := by
  obtain ⟨finiteDigit, unitsDigit⟩ := ofInt_digit few small
  have product : total * 2 ^ b * unitsPerOne = total <<< (b + 1074) := by
    rw [mul_unitsPerOne, ← Nat.shiftLeft_eq, ← Nat.shiftLeft_add]
  have room : b + 1074 ≤ 2044 := by omega
  obtain ⟨finite, units⟩ := unitsOf_nearest_shiftLeft room (Nat.le_of_lt exact)
  rw [← product] at finite units
  have finiteProduct : (ofInt (total * 2 ^ b : Nat)).isFinite := by
    rw [ofInt_natCast]
    exact isFinite_ofUnits _ finite
  have unitsProduct : (ofInt (total * 2 ^ b : Nat)).units = total * 2 ^ b * unitsPerOne := by
    rw [ofInt_natCast, units_ofUnits, units]
  rw [(unsigned_ofInt _).add_eq (unsigned_ofInt _) finiteProduct finiteDigit, unitsProduct,
    unitsDigit, ofInt_natCast, Nat.add_mul]

/-- A large total does not. -/
theorem ofInt_drop_digit
    {total : Nat}
    (large : exactIntegerBound ≤ total)
    (small : digit < 2 ^ b) :
    (ofInt (total * 2 ^ b : Nat)).add (ofInt digit) = ofInt (total * 2 ^ b : Nat) := by
  obtain ⟨finiteDigit, unitsDigit⟩ := ofInt_digit few small
  have binades := binades_le_rounded (Nat.mul_le_mul_right (2 ^ b) large)
  rw [ofInt_natCast (total * 2 ^ b)]
  by_cases infinite : infinityMagnitude ≤ rounded (total * 2 ^ b * unitsPerOne)
  · rw [ofUnits_of_large infinite, infinity_add finiteDigit]
  · obtain ⟨finite, _, units⟩ := ofUnits_of_small (Nat.lt_of_not_le infinite)
    rw [(unsigned_ofUnits _ _).add_eq (unsigned_ofInt _) finite finiteDigit, units, unitsDigit]
    refine ofUnits_inj.mpr ?_
    rw [nearest_eq_rounded, nearest_eq_rounded, rounded_add_digit binades small]

/-- What one more digit makes of the number nearest to a total. -/
theorem ofInt_push
    (total : Nat)
    (small : digit < 2 ^ b) :
    ((ofInt total).mul (ofInt (2 ^ b : Nat))).add (ofInt digit) = ofInt (push b total digit) := by
  rw [ofInt_mul_base few, push]
  split
  · rename_i exact
    exact ofInt_add_digit few exact small
  · rename_i large
    exact ofInt_drop_digit few (Nat.le_of_not_lt large) small

end Base

/-! ## The digits that do not count -/

/-- A total with zeros in place of the last bits of an integer, which has at least 54 bits before
them, if any bits are replaced at all. -/
structure Cut (zeros total whole : Nat) : Prop where
  multiple : 2 ^ zeros ∣ total
  low : total ≤ whole
  high : whole < total + 2 ^ zeros
  long : zeros = 0 ∨ exactIntegerBound * 2 ^ zeros ≤ total

theorem Cut.refl
    (total : Nat) :
    Cut 0 total total where
  multiple := Nat.one_dvd total
  low := Nat.le_refl total
  high := Nat.lt_succ_self total
  long := .inl rfl

/-- Each digit is taken by the integer, and by the total as a digit or as zeros. -/
theorem Cut.push
    {zeros total whole : Nat}
    (cut : Cut zeros total whole)
    (small : digit < 2 ^ b) :
    ∃ zeros', Cut zeros' (push b total digit) (whole * 2 ^ b + digit) := by
  obtain ⟨multiple, low, high, long⟩ := cut
  unfold Binary64.push
  split
  · rename_i exact
    have none : zeros = 0 := by
      refine long.resolve_right fun long => ?_
      have := Nat.le_mul_of_pos_right exactIntegerBound (Nat.two_pow_pos zeros)
      omega
    subst none
    obtain rfl : total = whole := by omega
    exact ⟨0, .refl _⟩
  · rename_i large
    refine ⟨zeros + b, ?_, ?_, ?_, .inr ?_⟩
    · rw [Nat.pow_add]
      exact Nat.mul_dvd_mul_right multiple _
    · exact Nat.le_trans (Nat.mul_le_mul_right _ low) (Nat.le_add_right _ _)
    · have next := Nat.mul_le_mul_right (2 ^ b) (Nat.succ_le_of_lt high)
      rw [Nat.succ_mul, Nat.add_mul, ← Nat.pow_add] at next
      omega
    · rw [Nat.pow_add, ← Nat.mul_assoc]
      refine Nat.mul_le_mul_right _ ?_
      rcases long with rfl | long
      · simpa using large
      · exact long

/-- The integer lies halfway between the number nearest to it and the next one. -/
def TiesDown (n : Nat) : Prop :=
  (ofInt n).isFinite ∧ 2 * (n * unitsPerOne) = (ofInt n).units + unitsOf ((ofInt n).magnitude + 1)

/-- Bits in place of zeros change the rounding of a tie alone. -/
theorem Cut.rounded_eq_iff
    {zeros total whole : Nat}
    (cut : Cut zeros total whole)
    (more : total < whole) :
    rounded (whole * unitsPerOne) = rounded (total * unitsPerOne) ↔
      2 * (total * unitsPerOne) ≠ unitsOf (rounded (total * unitsPerOne)) +
        unitsOf (rounded (total * unitsPerOne) + 1) := by
  obtain ⟨multiple, _, high, long⟩ := cut
  have beyond := Nat.mul_lt_mul_of_pos_right more unitsPerOne_pos
  constructor
  · intro same tie
    have most := two_mul_le (whole * unitsPerOne)
    rw [same] at most
    omega
  · intro noTie
    have below := Nat.lt_of_le_of_ne (two_mul_le (total * unitsPerOne)) noTie
    have large := binades_le_rounded (long.resolve_left (by rintro rfl; omega))
    have split : 1076 + zeros = 1075 + zeros + 1 := by ring
    -- halfway is a multiple of twice what the zeros stand for, and so is twice the total
    have halfway := two_pow_dvd_halfway (split ▸ large)
    have twice : 2 ^ (1075 + zeros) ∣ 2 * (total * unitsPerOne) := by
      rw [two_pow_units]
      exact Nat.mul_dvd_mul_left 2 (Nat.mul_dvd_mul_right multiple _)
    have step := Nat.le_of_dvd (Nat.sub_pos_of_lt below) (Nat.dvd_sub halfway twice)
    have less := Nat.mul_lt_mul_of_pos_right high unitsPerOne_pos
    rw [two_pow_units] at step
    rw [Nat.add_mul] at less
    exact Nat.le_antisymm (rounded_le_of_lt (by omega)) (rounded_mono (Nat.le_of_lt beyond))

/-- The total and the integer are nearest to the same number, unless the total is a tie that goes
down and the integer has more bits. -/
theorem Cut.ofInt_eq_iff
    {zeros total whole : Nat}
    (cut : Cut zeros total whole) :
    ofInt total = ofInt whole ↔ total = whole ∨ ¬ TiesDown total := by
  rcases Nat.eq_or_lt_of_le cut.low with rfl | more
  · simp
  · have apart := Nat.ne_of_lt more
    have larger := rounded_mono (Nat.mul_le_mul_right unitsPerOne cut.low)
    by_cases infinite : infinityMagnitude ≤ rounded (total * unitsPerOne)
    · have infinity := ofUnits_of_large infinite
      have noTie : ¬ TiesDown total := by
        rintro ⟨finite, _⟩
        rw [ofInt_natCast, infinity] at finite
        exact absurd finite (by decide)
      rw [ofInt_natCast, ofInt_natCast, infinity, ofUnits_of_large (Nat.le_trans infinite larger)]
      exact iff_of_true rfl (.inr noTie)
    · obtain ⟨finite, magnitude, units⟩ := ofUnits_of_small (Nat.lt_of_not_le infinite)
      have ties : TiesDown total ↔ 2 * (total * unitsPerOne) =
          unitsOf (rounded (total * unitsPerOne)) +
            unitsOf (rounded (total * unitsPerOne) + 1) := by
        rw [TiesDown, ofInt_natCast, units, magnitude]
        exact and_iff_right finite
      rw [ties, ← ne_eq, ← cut.rounded_eq_iff more, ofInt_natCast, ofInt_natCast, ofUnits_inj,
        nearest_eq_rounded, nearest_eq_rounded]
      omega

end Binary64
end JsonDoc
