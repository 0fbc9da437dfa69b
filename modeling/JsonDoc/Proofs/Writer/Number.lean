import JsonDoc.Proofs.Binary64.Units
import JsonDoc.Proofs.Decimal.Writing
import JsonDoc.Writer.Basic

/-!
# Written numbers

The text of a finite number, as an integer or in a layout, is a decimal spelling of it after a
minus for negative numbers, `exists_spells_integerOr`. Zero is written without a sign.
-/

namespace JsonDoc

namespace Binary64

/-- Zero is an integer. -/
theorem isIntegral_of_isZero
    {x : Binary64}
    (zero : x.isZero = true) :
    x.isIntegral = true ∧ x.truncate = 0 := by
  have units := isZero_iff_units.mp zero
  have finite : x.isFinite := by
    rw [isZero, beq_iff_eq] at zero
    simp [isFinite, zero, infinityMagnitude]
  simp [isIntegral, truncate, finite, units]

/-- Whether the text of a number starts with a minus. -/
def signed (x : Binary64) : Bool := x.negative && !x.isZero

/-- The number without the sign of a zero. -/
def unsignedZero
    (x : Binary64) : Binary64 :=
  ⟨x.signed, x.magnitude, x.magnitude_lt⟩

theorem signed_of_nonzero
    {x : Binary64}
    (nonzero : x.isZero = false) :
    x.signed = x.negative := by
  rw [signed, nonzero, Bool.not_false, Bool.and_true]

/-- Zero is an integer below every limit. -/
theorem isZero_of_not_integer
    {limit : Nat}
    (some : 0 < limit)
    {x : Binary64}
    (notInteger : ¬ (x.isIntegral && decide (x.truncate.natAbs < limit)) = true) :
    x.isZero = false := by
  rw [← Bool.not_eq_true]
  intro zero
  obtain ⟨integral, truncated⟩ := isIntegral_of_isZero zero
  simp [integral, truncated, some] at notInteger

/-- The integer part of an integral number has all of its units. -/
theorem units_eq_of_isIntegral
    {x : Binary64}
    (h : x.isIntegral) :
    x.units / unitsPerOne * unitsPerOne = x.units := by
  simp only [isIntegral, Bool.and_eq_true, beq_iff_eq] at h
  exact Nat.div_mul_cancel (Nat.dvd_of_mod_eq_zero h.2)

theorem natAbs_truncate
    (x : Binary64) :
    x.truncate.natAbs = x.units / unitsPerOne := by
  rw [truncate]
  generalize x.units / unitsPerOne = whole
  cases x.negative <;> simp

/-- An integer part has the sign of the number, unless it is zero. -/
theorem truncate_neg
    {x : Binary64}
    (some : 0 < x.units / unitsPerOne) :
    decide (x.truncate < 0) = x.negative := by
  rw [truncate]
  generalize x.units / unitsPerOne = whole at some ⊢
  cases x.negative with
  | false =>
      simp
  | true =>
      simp [some]

/-- An integral number is the double of its integer part, up to the sign of zero. -/
theorem ofInt_truncate
    {x : Binary64}
    (integral : x.isIntegral) :
    ofInt x.truncate = x.unsignedZero := by
  have whole := units_eq_of_isIntegral integral
  simp only [isIntegral, isFinite, Bool.and_eq_true, decide_eq_true_eq] at integral
  have magnitude : nearest (x.truncate.natAbs * unitsPerOne) 1 = x.magnitude := by
    rw [natAbs_truncate, whole]
    exact nearest_unitsOf integral.1
  have sign : decide (x.truncate < 0) = x.signed := by
    cases zero : x.isZero with
    | true =>
        simp [(isIntegral_of_isZero zero).2, signed, zero]
    | false =>
        have some : 0 < x.units / unitsPerOne := by
          rw [Nat.pos_iff_ne_zero]
          intro none
          rw [none, Nat.zero_mul] at whole
          rw [isZero_iff_units.mpr whole.symm] at zero
          cases zero
        rw [truncate_neg some, signed_of_nonzero zero]
  simp only [ofInt, ofUnits, unsignedZero, magnitude, sign]

end Binary64

namespace Writer

open NumberText Decimal

theorem nearest_of_digits
    {d : Decimal}
    (none : d.digits = 0) :
    d.nearest = 0 := by
  rw [nearest, if_pos none]

/-- The text of zero without its sign. -/
theorem exists_spells_zero
    (fraction : Bool) :
    ∃ body d, Spells body d ∧ d.nearest = 0 ∧
      (if fraction then "0.0" else "0").toList = body := by
  cases fraction with
  | false =>
      exact ⟨_, _, .mk .zero .none .none, nearest_of_digits (by decide), by simp⟩
  | true =>
      have digits : ∀ c ∈ ['0'], c.isDigit := List.forall_mem_singleton.mpr (by decide)
      have spells := Spells.mk .zero (.some (List.cons_ne_nil _ _) digits) .none
      exact ⟨_, _, spells, nearest_of_digits (by decide), by simp⟩

/-- The text of a number above zero without its sign. -/
theorem exists_spells_shortest
    {layout : Layout}
    (sign : layout.exponentSign = "" ∨ layout.exponentSign = "+")
    {x : Binary64}
    (finite : x.isFinite)
    (nonzero : x.isZero = false) :
    ∃ body d, Spells body d ∧ d.nearest = x.magnitude ∧
      ((shortest layout.tie x.magnitude).write layout).toList = body := by
  have small : x.magnitude < Binary64.infinityMagnitude := by
    simpa [Binary64.isFinite] using finite
  have reads := nearest_shortest layout.tie small
  have positive : (shortest layout.tie x.magnitude).digits ≠ 0 := by
    intro none
    have zero := nearest_of_digits none
    rw [reads] at zero
    simp [Binary64.isZero, zero] at nonzero
  obtain ⟨d, spells, same⟩ := Decimal.exists_spells_write sign positive
  exact ⟨_, d, spells, same.trans reads, rfl⟩

/-- The text of a finite number in a layout. -/
theorem exists_spells_write
    {layout : Layout}
    (sign : layout.exponentSign = "" ∨ layout.exponentSign = "+")
    {x : Binary64}
    (finite : x.isFinite) :
    ∃ body d, Spells body d ∧ d.nearest = x.magnitude ∧
      (x.write layout).toList = if x.negative then '-' :: body else body := by
  have small : x.magnitude < Binary64.infinityMagnitude := by
    simpa [Binary64.isFinite] using finite
  have notNaN : x.isNaN = false := by
    simp [Binary64.isNaN]
    omega
  have notInfinite : x.isInfinite = false := by
    simp [Binary64.isInfinite]
    omega
  have unsigned : ∃ body d, Spells body d ∧ d.nearest = x.magnitude ∧
      (if x.isZero then (if layout.fraction then "0.0" else "0")
        else (shortest layout.tie x.magnitude).write layout).toList = body := by
    cases zero : x.isZero with
    | true =>
        rw [Binary64.isZero, beq_iff_eq] at zero
        rw [zero]
        exact exists_spells_zero layout.fraction
    | false =>
        exact exists_spells_shortest sign finite zero
  obtain ⟨body, d, spells, same, text⟩ := unsigned
  refine ⟨body, d, spells, same, ?_⟩
  unfold Binary64.write
  cases x.negative <;> simp [notNaN, notInfinite, text]

/-- The text of an integer. -/
theorem exists_spells_integer
    (n : Int) :
    ∃ body d, Spells body d ∧ d.nearest = (Binary64.ofInt n).magnitude ∧
      (toString n).toList = if (Binary64.ofInt n).negative then '-' :: body else body := by
  have value : ofDigits (Nat.toDigits 10 n.natAbs) = n.natAbs := Nat.ofDigitChars_ten_toDigits
  have spells := Spells.mk (whole_toDigits n.natAbs) .none .none
  simp only [List.append_nil, value] at spells
  refine ⟨_, _, spells, ?_, ?_⟩
  · rw [Decimal.nearest_eq]
    simp [Decimal.quotient, Binary64.ofInt, Binary64.ofUnits]
  · rw [Int.toString_eq_repr, Int.repr_eq_if]
    by_cases negative : n < 0
    · have digits : (-n).toNat = n.natAbs := by omega
      simp [Binary64.ofInt, Binary64.ofUnits, negative, Int.not_le.mpr negative, digits]
    · have digits : n.toNat = n.natAbs := by omega
      simp [Binary64.ofInt, Binary64.ofUnits, negative, Int.not_lt.mp negative, digits]

/-- The text of an integral number without a fraction. -/
theorem exists_spells_truncate
    {x : Binary64}
    (integral : x.isIntegral) :
    ∃ body d, Spells body d ∧ d.nearest = x.magnitude ∧
      (toString x.truncate).toList = if x.signed then '-' :: body else body := by
  have spelled := exists_spells_integer x.truncate
  rwa [Binary64.ofInt_truncate integral] at spelled

/-- The text of a finite number, as an integer or in a layout. -/
theorem exists_spells_integerOr
    {limit : Nat}
    (some : 0 < limit)
    {layout : Layout}
    (sign : layout.exponentSign = "" ∨ layout.exponentSign = "+")
    {x : Binary64}
    (finite : x.isFinite) :
    ∃ body d, Spells body d ∧ d.nearest = x.magnitude ∧
      (integerOr limit layout x).toList = if x.signed then '-' :: body else body := by
  unfold integerOr
  split
  · rename_i integer
    simp only [Bool.and_eq_true] at integer
    exact exists_spells_truncate integer.1
  · rename_i notInteger
    rw [Binary64.signed_of_nonzero (Binary64.isZero_of_not_integer some notInteger)]
    exact exists_spells_write sign finite

end Writer
end JsonDoc
