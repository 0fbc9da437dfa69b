import JsonDoc.Proofs.Binary64.Quotient
import JsonDoc.Proofs.Schema.SingleKeyword

/-!
# Multiples

The keyword `multipleOf` divides and asks whether the quotient equals its nearest integer, up to
rounding. An integer passes it for every divisor of it. What passes is near to a multiple: by a
`2 ^ 53`-th of three times the larger one of the number and the divisor, at the most. So the keyword
tells multiples from other integers up to a third of `2 ^ 53`, and not far beyond.
-/

namespace JsonDoc
open Binary64 hiding max

namespace Schema

/-! ## Rounded quotients -/

/-- The quotient of `n` and `d` in `p`-th parts of one, rounded to an integer `r` of 53 bits. -/
structure RoundedQuotient (n d p r : Nat) : Prop where
  full : binade * d ≤ n * p
  low : 2 * (n * p) ≤ 2 * (r * d) + d
  high : 2 * (r * d) ≤ 2 * (n * p) + d
  most : r ≤ 2 * binade

/-- How far the rounded quotient is from its nearest integer, in parts of one. -/
def excess (r p : Nat) : Nat := ((r : Int) - nearestInteger r p * p).natAbs

/-- How far `n` is from the multiple of `d` by that integer. -/
def remainder
    (n d p r : Nat) : Nat :=
  ((n : Int) - nearestInteger r p * d).natAbs

namespace RoundedQuotient

variable {n d p r : Nat}

/-- A remainder shows in the quotient, up to one half for the rounding. -/
theorem remainder_le
    (h : RoundedQuotient n d p r) :
    2 * (remainder n d p r * p) ≤ d * (2 * excess r p + 1) := by
  obtain ⟨_, low, high, _⟩ := h
  have split : ((n : Int) - nearestInteger r p * d) * p =
      ((n * p : Nat) - (r * d : Nat)) + d * ((r : Int) - nearestInteger r p * p) := by
    push_cast
    ring
  have rounding : 2 * ((n * p : Nat) - (r * d : Nat) : Int).natAbs ≤ d := by
    omega
  have whole : remainder n d p r * p =
      (((n : Int) - nearestInteger r p * d) * p).natAbs := by
    rw [Int.natAbs_mul, Int.natAbs_natCast, remainder]
  have product : ((d : Int) * ((r : Int) - nearestInteger r p * p)).natAbs = d * excess r p := by
    rw [Int.natAbs_mul, Int.natAbs_natCast, excess]
  have triangle := Int.natAbs_add_le ((n * p : Nat) - (r * d : Nat) : Int)
    (d * ((r : Int) - nearestInteger r p * p))
  rw [← split, ← whole, product] at triangle
  rw [Nat.mul_add, Nat.mul_left_comm d 2]
  omega

/-- Between the integer bound and one, only the last step before the bound may be two parts off. -/
theorem excess_le_of_dvd
    (h : RoundedQuotient n d p r)
    (positive : 0 < p)
    (divides : p ∣ binade)
    (passes : binade * excess r p ≤ max (max r (nearestInteger r p * p)) p) :
    excess r p ≤ 1 ∨ (excess r p = 2 ∧ r + 2 = 2 * binade) := by
  obtain ⟨c, whole⟩ := divides
  have most := h.most
  obtain ⟨_, near⟩ := nearestInteger_near (r := r) positive
  have one : p ≤ binade := Nat.le_of_dvd (by decide) ⟨c, whole⟩
  have bound : nearestInteger r p * p ≤ 2 * binade := by
    have integer : nearestInteger r p < 2 * c + 1 := by
      refine Nat.lt_of_mul_lt_mul_right (a := p) ?_
      rw [Nat.add_mul, Nat.mul_assoc, Nat.mul_comm c, ← whole]
      omega
    calc
      nearestInteger r p * p ≤ 2 * c * p := Nat.mul_le_mul_right p (Nat.le_of_lt_succ integer)
      _ = 2 * binade := by rw [Nat.mul_assoc, Nat.mul_comm c, ← whole]
  have two : excess r p ≤ 2 := by
    refine Nat.le_of_mul_le_mul_left ?_ (show 0 < binade by decide)
    omega
  rcases Nat.lt_or_eq_of_le two with less | same
  · exact .inl (Nat.le_of_lt_succ less)
  · refine .inr ⟨same, ?_⟩
    -- the bound itself is an integer
    have notBound : r ≠ 2 * binade := by
      rintro rfl
      have integer : nearestInteger (2 * binade) p * p = 2 * binade := by
        have split : 2 * binade = 2 * c * p := by rw [Nat.mul_assoc, Nat.mul_comm c, ← whole]
        rw [split, nearestInteger_mul positive]
      rw [excess, ← Int.natCast_mul, integer, Int.sub_self] at same
      exact absurd same (by decide)
    rw [same] at passes
    have few : p < 2 * binade := by
      have : 0 < binade := by decide
      omega
    have integer : nearestInteger r p * p = 2 * binade := by omega
    rw [excess, ← Int.natCast_mul, integer] at same
    omega

/-- There the quotient is so large that two parts and a half are little of it. -/
theorem five_mul_le
    (h : RoundedQuotient n d p r)
    (last : r + 2 = 2 * binade) :
    binade * (d * 5) ≤ 3 * (n * p) := by
  have high := h.high
  have scaled : r * d + 2 * d = 2 * (binade * d) := by
    rw [← Nat.add_mul, last, Nat.mul_assoc]
  have large : 8 * d ≤ binade * d := Nat.mul_le_mul_right d (by decide)
  have product : binade * (d * 5) = 5 * (binade * d) := by ring
  omega

/-- A quotient of at least one that passes is near to an integer in proportion to the number. -/
theorem remainder_le_of_dvd
    (h : RoundedQuotient n d p r)
    (positive : 0 < p)
    (divides : p ∣ binade)
    (passes : binade * excess r p ≤ max (max r (nearestInteger r p * p)) p) :
    2 * binade * remainder n d p r ≤ 3 * n := by
  have parts : binade * (d * (2 * excess r p + 1)) ≤ 3 * (n * p) := by
    rcases h.excess_le_of_dvd positive divides passes with one | ⟨two, last⟩
    · calc
        binade * (d * (2 * excess r p + 1)) = binade * d * (2 * excess r p + 1) := by ring
        _ ≤ n * p * 3 := Nat.mul_le_mul h.full (by omega)
        _ = 3 * (n * p) := Nat.mul_comm _ _
    · rw [two]
      exact h.five_mul_le last
  refine Nat.le_of_mul_le_mul_right (c := p) ?_ positive
  calc
    2 * binade * remainder n d p r * p = binade * (2 * (remainder n d p r * p)) := by ring
    _ ≤ binade * (d * (2 * excess r p + 1)) := Nat.mul_le_mul_left _ h.remainder_le
    _ ≤ 3 * n * p := by rw [Nat.mul_assoc]; exact parts

/-- A quotient below one is near to zero or one in proportion to the divisor. -/
theorem remainder_le_of_le
    (h : RoundedQuotient n d p r)
    (many : 2 * binade ≤ p)
    (passes : binade * excess r p ≤ max (max r (nearestInteger r p * p)) p) :
    2 * binade * remainder n d p r ≤ 3 * d := by
  have positive : 0 < p := Nat.lt_of_lt_of_le (by decide) many
  obtain ⟨_, near⟩ := nearestInteger_near (r := r) positive
  have most := h.most
  have atMostOne : nearestInteger r p * p ≤ p := by
    have integer : nearestInteger r p < 2 := by
      refine Nat.lt_of_mul_lt_mul_right (a := p) ?_
      omega
    exact Nat.le_trans (Nat.mul_le_mul_right p (Nat.le_of_lt_succ integer)) (by omega)
  have small : binade * excess r p ≤ p := by omega
  refine Nat.le_of_mul_le_mul_right (c := p) ?_ positive
  calc
    2 * binade * remainder n d p r * p = binade * (2 * (remainder n d p r * p)) := by ring
    _ ≤ binade * (d * (2 * excess r p + 1)) := Nat.mul_le_mul_left _ h.remainder_le
    _ = d * (2 * (binade * excess r p) + binade) := by ring
    _ ≤ d * (3 * p) := Nat.mul_le_mul_left _ (by omega)
    _ = 3 * d * p := by ring

end RoundedQuotient

/-! ## Quotients of integers -/

section Quotients

variable {n d : Nat}

/-- The integer that is kept of the quotient of two integers, and the parts of one it counts. -/
theorem exists_parts
    (hn : n < 2 * binade)
    (d : Nat) :
    ∃ k, surplusBits (n * unitsPerOne / d) + k = 1074 ∧
      unitsPerOne = 2 ^ k * 2 ^ surplusBits (n * unitsPerOne / d) := by
  have few := surplusBits_quotient hn d
  have split : surplusBits (n * unitsPerOne / d) + (1074 - surplusBits (n * unitsPerOne / d)) =
      1074 := by omega
  exact ⟨_, split, unitsPerOne_eq split⟩

theorem roundedQuotient_kept
    (positive : 0 < n)
    (hd : 0 < d)
    (hd' : d < 2 * binade)
    {k : Nat}
    (split : surplusBits (n * unitsPerOne / d) + k = 1074)
    (units : unitsPerOne = 2 ^ k * 2 ^ surplusBits (n * unitsPerOne / d)) :
    RoundedQuotient n d (2 ^ k) (kept (n * unitsPerOne) d) := by
  obtain ⟨cut, _⟩ := cut_bounds (n * unitsPerOne) d
  obtain ⟨_, most⟩ := kept_bounds (n * unitsPerOne) d
  have some : 0 < d <<< surplusBits (n * unitsPerOne / d) := by
    rw [Nat.shiftLeft_eq]
    exact Nat.mul_pos hd (Nat.two_pow_pos _)
  obtain ⟨low, high⟩ := roundDivEven_near (n * unitsPerOne) some
  rw [← kept] at low high
  generalize kept (n * unitsPerOne) d = r at low high most ⊢
  generalize surplusBits (n * unitsPerOne / d) = s at split units cut low high
  rw [Nat.shiftLeft_eq, units] at low high cut
  have step := Nat.two_pow_pos s
  refine ⟨?_, ?_, ?_, most⟩
  · rcases cut with rfl | full
    · have large : binade * d ≤ 2 ^ k := by
        have two : binade * (2 * binade) = 2 ^ 105 := by decide
        calc
          binade * d ≤ binade * (2 * binade) := Nat.mul_le_mul_left _ (Nat.le_of_lt hd')
          _ = 2 ^ 105 := two
          _ ≤ 2 ^ k := Nat.pow_le_pow_right (by decide) (by omega)
      exact Nat.le_trans large (Nat.le_mul_of_pos_left _ positive)
    · rw [Nat.le_div_iff_mul_le (Nat.mul_pos hd step)] at full
      refine Nat.le_of_mul_le_mul_right (c := 2 ^ s) ?_ step
      rw [Nat.mul_assoc, Nat.mul_assoc]
      exact full
  · refine Nat.le_of_mul_le_mul_right (c := 2 ^ s) ?_ step
    linarith
  · refine Nat.le_of_mul_le_mul_right (c := 2 ^ s) ?_ step
    linarith

theorem kept_mul
    (q : Nat)
    (hd : 0 < d)
    {k : Nat}
    (units : unitsPerOne = 2 ^ k * 2 ^ surplusBits (q * d * unitsPerOne / d)) :
    kept (q * d * unitsPerOne) d = q * 2 ^ k := by
  unfold kept
  generalize surplusBits (q * d * unitsPerOne / d) = s at units ⊢
  have split : q * d * unitsPerOne = q * 2 ^ k * (d <<< s) := by
    rw [units, Nat.shiftLeft_eq]
    ring
  have positive : 0 < d <<< s := by
    rw [Nat.shiftLeft_eq]
    exact Nat.mul_pos hd (Nat.two_pow_pos s)
  rw [split, roundDivEven_exact _ positive]

end Quotients

/-! ## The keyword -/

section Keyword

variable {n d : Int}

/-- The keyword compares integers. -/
theorem isMultiple_iff
    (hn : n.natAbs < 2 * binade)
    (hd : d.natAbs < 2 * binade)
    (nonzero : d ≠ 0)
    {k r : Nat}
    (split : surplusBits (n.natAbs * unitsPerOne / d.natAbs) + k = 1074)
    (value : kept (n.natAbs * unitsPerOne) d.natAbs = r) :
    isMultiple (ofInt n) (ofInt d) ↔
      binade * excess r (2 ^ k) ≤ max (max r (nearestInteger r (2 ^ k) * 2 ^ k)) (2 ^ k) := by
  subst value
  obtain ⟨finite, units⟩ := units_div_ofInt hn hd nonzero
  exact approxEq_round_iff finite units split (kept_bounds _ _).2

/-- Every multiple passes. -/
theorem isMultiple_of_dvd
    (hn : n.natAbs < 2 * binade)
    (hd : d.natAbs < 2 * binade)
    (nonzero : d ≠ 0)
    (divides : d ∣ n) :
    isMultiple (ofInt n) (ofInt d) := by
  obtain ⟨k, split, units⟩ := exists_parts hn d.natAbs
  obtain ⟨q, whole⟩ := Int.natAbs_dvd_natAbs.mpr divides
  rw [Nat.mul_comm] at whole
  have value : kept (n.natAbs * unitsPerOne) d.natAbs = q * 2 ^ k := by
    rw [whole] at units ⊢
    exact kept_mul q (Int.natAbs_pos.mpr nonzero) units
  rw [isMultiple_iff hn hd nonzero split value, excess, nearestInteger_mul (Nat.two_pow_pos k),
    Int.natCast_mul, Int.sub_self]
  exact Nat.zero_le _

/-- What passes is near to a multiple. -/
theorem near_of_isMultiple
    (hn : n.natAbs < 2 * binade)
    (hd : d.natAbs < 2 * binade)
    (nonzero : d ≠ 0)
    (passes : isMultiple (ofInt n) (ofInt d)) :
    ∃ j : Int, 2 * binade * (n - j * d).natAbs ≤ 3 * max n.natAbs d.natAbs := by
  rcases Nat.eq_zero_or_pos n.natAbs with zero | positive
  · refine ⟨0, ?_⟩
    rw [Int.zero_mul, Int.sub_zero, zero]
    exact Nat.zero_le _
  · obtain ⟨k, split, units⟩ := exists_parts hn d.natAbs
    have h := roundedQuotient_kept positive (Int.natAbs_pos.mpr nonzero) hd split units
    rw [isMultiple_iff hn hd nonzero split rfl] at passes
    generalize kept (n.natAbs * unitsPerOne) d.natAbs = r at h passes
    have near : 2 * binade * remainder n.natAbs d.natAbs (2 ^ k) r ≤ 3 * max n.natAbs d.natAbs := by
      rcases Nat.lt_or_ge 52 k with many | few
      · have large : 2 * binade ≤ 2 ^ k :=
          Nat.le_trans (show 2 * binade ≤ 2 ^ 53 by decide) (Nat.pow_le_pow_right (by decide) many)
        have := h.remainder_le_of_le large passes
        omega
      · have divides : 2 ^ k ∣ binade := Nat.pow_dvd_pow 2 few
        have := h.remainder_le_of_dvd (Nat.two_pow_pos k) divides passes
        omega
    -- the multiple has the signs of both numbers
    refine ⟨n.sign * d.sign * nearestInteger r (2 ^ k), ?_⟩
    have same : (n - n.sign * d.sign * nearestInteger r (2 ^ k) * d).natAbs =
        remainder n.natAbs d.natAbs (2 ^ k) r := by
      have signs : n - n.sign * d.sign * nearestInteger r (2 ^ k) * d =
          n.sign * (n.natAbs - nearestInteger r (2 ^ k) * d.natAbs) := by
        rw [Int.mul_sub, Int.sign_mul_natAbs, ← Int.sign_mul_self_eq_natAbs d]
        ring
      rw [signs, Int.natAbs_mul, Int.natAbs_sign_of_ne_zero (Int.natAbs_pos.mp positive),
        Nat.one_mul, remainder]
    rw [same]
    exact near

end Keyword

/-! ## Validation -/

/-- The schema that asks for multiples of a number. -/
def multiplesOf (divisor : Binary64) : Tree :=
  .object [(Keyword.multipleOf.name, .number divisor)]

/-- No other keyword for numbers looks at the number. -/
theorem numberCheck_multiplesOf
    (collectAll : Bool)
    (n : Binary64)
    {divisor : Binary64}
    (finite : divisor.isFinite)
    (positive : divisor.le zero = false)
    (path place : Pointer) :
    numberCheck collectAll [(Keyword.multipleOf.name, .number divisor)] n path place (.number n) =
      Check.demand (isMultiple n divisor) path (.notMultiple n divisor) (.number n) := by
  have bound (keyword exclusive : Keyword) (h : keyword ≠ .multipleOf)
      (h' : exclusive ≠ .multipleOf) :
      Rules.bound [(Keyword.multipleOf.name, .number divisor)] keyword exclusive place =
        .ok none := by
    simp only [Rules.bound, Rules.number, Rules.exclusive, Rules.find?_single, if_neg h, if_neg h',
      Option.map_none]
  have number : Rules.number [(Keyword.multipleOf.name, .number divisor)] .multipleOf place =
      .ok (some divisor) := by
    simp only [Rules.number, Rules.find?_single, if_true, finite]
  simp only [numberCheck, number, bound .maximum .exclusiveMaximum (by decide) (by decide),
    bound .minimum .exclusiveMinimum (by decide) (by decide), Check.ofKeyword, positive]
  cases isMultiple n divisor <;> cases collectAll <;> rfl

end Schema

namespace Validator

open Schema

variable {engine : Pattern.Engine}

theorem check_multiplesOf
    {options : ValidatorOptions}
    (limit : options.maxDepth ≠ some 0)
    (n : Binary64)
    {divisor : Binary64}
    (finite : divisor.isFinite)
    (positive : divisor.le zero = false) :
    ∃ report, check (multiplesOf divisor) options (.number n) engine = .ok report ∧
      report.valid = isMultiple n divisor := by
  have walked : outcome (multiplesOf divisor) options (.number n) engine =
      Check.demand (isMultiple n divisor) Pointer.root (.notMultiple n divisor) (.number n) := by
    rw [multiplesOf, outcome_single limit (by simp [generalKeywords])]
    exact numberCheck_multiplesOf _ n finite positive _ _
  rw [check, checkAndFill, walked]
  cases isMultiple n divisor with
  | true =>
      exact ⟨⟨true, []⟩, rfl, rfl⟩
  | false =>
      exact ⟨⟨false, _⟩, rfl, rfl⟩

theorem not_le_zero_ofInt
    {d : Int}
    (hd : 1 ≤ d)
    (hd' : d.natAbs ≤ 2 * binade) :
    (ofInt d).le zero = false := by
  have noSign : (ofInt d).negative = false := decide_eq_false (by omega)
  have unsigned : (ofInt d).Unsigned := ⟨not_isNaN_of_isFinite (units_ofInt hd').1, noSign⟩
  have some : (ofInt d).units ≠ 0 := by
    rw [(units_ofInt hd').2]
    exact Nat.ne_of_gt (Nat.mul_pos (by omega) unitsPerOne_pos)
  have nonzero := isZero_of_units some
  rw [isZero, beq_eq_false_iff_ne] at nonzero
  rw [Bool.eq_false_iff]
  intro least
  have := (unsigned.le_iff (y := zero) ⟨by decide, by decide⟩).mp least
  exact nonzero (Nat.le_zero.mp this)

/-- Validation by `multipleOf` accepts every multiple of the divisor. What it accepts is near to a
multiple, within `3 / 2 ^ 53` of the larger one of the number and the divisor. So up to a third of
`2 ^ 53` it accepts the multiples and nothing else. -/
theorem check_multipleOf
    (options : ValidatorOptions)
    (engine : Pattern.Engine)
    (limit : options.maxDepth ≠ some 0)
    (n d : Int)
    (hn : |n| < 2 ^ 53)
    (hd : 1 ≤ d)
    (hd' : d < 2 ^ 53) :
    ∃ report, check (multiplesOf (ofInt d)) options (.number (ofInt n)) engine = .ok report ∧
      (d ∣ n → report.valid) ∧
      (report.valid → ∃ j, 2 ^ 53 * |n - j * d| ≤ 3 * max |n| d) ∧
      (3 * max |n| d ≤ 2 ^ 53 → (report.valid ↔ d ∣ n)) := by
  have bound : 2 * binade = 2 ^ 53 := by decide
  simp only [Int.abs_eq_natAbs] at hn ⊢
  have hn : n.natAbs < 2 * binade := by omega
  have hd' : d.natAbs < 2 * binade := by omega
  have nonzero : d ≠ 0 := by omega
  obtain ⟨report, done, valid⟩ := check_multiplesOf limit (ofInt n)
    (units_ofInt (Nat.le_of_lt hd')).1 (not_le_zero_ofInt hd (Nat.le_of_lt hd'))
  have multiple (divides : d ∣ n) : report.valid := by
    rw [valid]
    exact isMultiple_of_dvd hn hd' nonzero divides
  have near (passes : report.valid) :
      ∃ j : Int, 2 ^ 53 * ((n - j * d).natAbs : Int) ≤ 3 * max (n.natAbs : Int) d := by
    rw [valid] at passes
    obtain ⟨j, close⟩ := near_of_isMultiple hn hd' nonzero passes
    rw [bound] at close
    exact ⟨j, by omega⟩
  refine ⟨report, done, multiple, near, fun small => ⟨fun passes => ?_, multiple⟩⟩
  obtain ⟨j, close⟩ := near passes
  -- no power of two is a multiple of three, so the remainder is less than one
  have none : n - j * d = 0 := by omega
  exact ⟨j, by rw [Int.mul_comm]; omega⟩

/-- The next numbers beyond that: a divisor that is less by one. -/
example : isMultiple (ofInt 3002399751580332) (ofInt 3002399751580331) := by decide +kernel

/-- With a remainder of one the quotient passes, as half a unit is within the tolerance for a number
of its size. -/
theorem check_multipleOf_odd :
    ∃ report, check (multiplesOf (ofInt 2)) {} (.number (ofInt 9007199254740991)) = .ok report ∧
      report.valid ∧ |(9007199254740991 : Int)| < 2 ^ 53 ∧ ¬ (2 : Int) ∣ 9007199254740991 := by
  have passes : isMultiple (ofInt 9007199254740991) (ofInt 2) := by decide +kernel
  have limit : ({} : ValidatorOptions).maxDepth ≠ some 0 := by decide
  have divisor : (ofInt 2).isFinite ∧ (ofInt 2).le zero = false := by decide +kernel
  obtain ⟨report, done, valid⟩ :=
    check_multiplesOf limit (ofInt 9007199254740991) divisor.1 divisor.2
  exact ⟨report, done, valid.trans passes, by decide, by decide⟩

/-- A number just below the bound, and a divisor that leaves a remainder. -/
theorem check_multipleOf_third :
    (({} : ValidatorOptions).maxDepth ≠ some 0 ∧ |(3002399751580330 : Int)| < 2 ^ 53 ∧
        (1 : Int) ≤ 7 ∧ (7 : Int) < 2 ^ 53) ∧
      ∃ report, check (multiplesOf (ofInt 7)) {} (.number (ofInt 3002399751580330)) = .ok report ∧
        report.valid = false := by
  have hypotheses : ({} : ValidatorOptions).maxDepth ≠ some 0 ∧
      |(3002399751580330 : Int)| < 2 ^ 53 ∧ (1 : Int) ≤ 7 ∧ (7 : Int) < 2 ^ 53 := by decide
  obtain ⟨limit, hn, hd, hd'⟩ := hypotheses
  obtain ⟨report, done, _, _, exact⟩ := check_multipleOf {} _ limit 3002399751580330 7 hn hd hd'
  refine ⟨⟨limit, hn, hd, hd'⟩, report, done, ?_⟩
  rw [Bool.eq_false_iff, ne_eq, exact (by decide)]
  decide

end Validator
end JsonDoc
