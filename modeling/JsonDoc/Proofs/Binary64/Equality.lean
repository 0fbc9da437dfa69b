import JsonDoc.Proofs.Binary64.Units
import JsonDoc.Proofs.Number.Values

/-!
# Equality up to rounding

The tolerance of an equality of finite numbers is exact: it is the larger one of their absolute
values and one, 52 binades down. So two finite numbers are equal as soon as their difference, which
is rounded, keeps to that part of it: `approxEq_iff_of_finite`. In particular a difference that
overflows is too large.

Next to an infinity the tolerance is infinite, and so an infinity equals every number but NaN:
`approxEq_of_isInfinite`.
-/

namespace JsonDoc
namespace Binary64

variable {x y : Binary64}

/-- The larger one of two absolute values and one, in units. -/
def scale
    (x y : Binary64) : Nat :=
  Max.max (Max.max x.units y.units) unitsPerOne

/-- What two equal numbers may differ by. -/
def tolerance
    (x y : Binary64) : Binary64 :=
  epsilon.mul ((x.abs.max y.abs).max one)

theorem approxEq_eq
    (x y : Binary64) :
    x.approxEq y = (x.numEq y || (x.sub y).abs.le (tolerance x y)) := rfl

/-! ## Classes and signs -/

theorem not_isNaN_of_isFinite
    (h : x.isFinite) :
    x.isNaN = false := by
  simp only [isFinite, isNaN, decide_eq_true_eq, decide_eq_false_iff_not] at h ⊢
  omega

theorem not_isInfinite_of_isFinite
    (h : x.isFinite) :
    x.isInfinite = false := by
  simp only [isFinite, isInfinite, decide_eq_true_eq, beq_eq_false_iff_ne] at h ⊢
  omega

theorem isFinite_or_isInfinite
    (h : x.isNaN = false) :
    x.isFinite ∨ x.isInfinite := by
  simp only [isFinite, isInfinite, isNaN, decide_eq_true_eq, decide_eq_false_iff_not,
    beq_iff_eq] at h ⊢
  omega

@[simp] theorem isInfinite_neg
    (x : Binary64) :
    x.neg.isInfinite = x.isInfinite := rfl

@[simp] theorem signedUnits_neg
    (x : Binary64) :
    x.neg.signedUnits = -x.signedUnits := by
  cases h : x.negative <;> simp [signedUnits, units, neg, h]

theorem unsigned_abs
    (h : x.isNaN = false) :
    x.abs.Unsigned := ⟨h, rfl⟩

theorem unsigned_one :
    one.Unsigned := ⟨by decide, by decide⟩

theorem unsigned_epsilon :
    epsilon.Unsigned := ⟨by decide, by decide⟩

namespace Unsigned

theorem rank
    (h : x.Unsigned) :
    x.rank = x.magnitude := by
  simp [Binary64.rank, h.noSign]

theorem le_iff
    (h : x.Unsigned)
    (k : y.Unsigned) :
    x.le y ↔ x.magnitude ≤ y.magnitude := by
  simp [le, h.notNaN, k.notNaN, h.rank, k.rank]

/-- The larger one of two numbers without sign has the larger magnitude. -/
theorem max
    (h : x.Unsigned)
    (k : y.Unsigned) :
    (x.max y).Unsigned ∧ (x.max y).magnitude = Max.max x.magnitude y.magnitude := by
  simp only [Binary64.max, h.notNaN, k.notNaN, h.rank, k.rank, Bool.false_eq_true, if_false,
    Int.ofNat_le]
  split
  · exact ⟨k, by omega⟩
  · exact ⟨h, by omega⟩

end Unsigned

/-- The number that the tolerance is a part of. -/
theorem max_one
    (hx : x.isNaN = false)
    (hy : y.isNaN = false) :
    ((x.abs.max y.abs).max one).Unsigned ∧
      ((x.abs.max y.abs).max one).magnitude =
        Max.max (Max.max x.magnitude y.magnitude) one.magnitude := by
  obtain ⟨unsigned, larger⟩ := (unsigned_abs hx).max (unsigned_abs hy)
  obtain ⟨unsigned, largest⟩ := unsigned.max unsigned_one
  rw [larger, magnitude_abs, magnitude_abs] at largest
  exact ⟨unsigned, largest⟩

/-! ## Differences -/

/-- The difference of finite numbers is their exact difference, rounded once. -/
theorem units_sub
    (hx : x.isFinite)
    (hy : y.isFinite) :
    (x.sub y).isNaN = false ∧
      (x.sub y).units = unitsOf (nearest (x.signedUnits - y.signedUnits).natAbs 1) := by
  have eq : x.signedUnits + y.neg.signedUnits = x.signedUnits - y.signedUnits := by
    rw [signedUnits_neg, Int.sub_eq_add_neg]
  simp only [sub, add, isNaN_neg, isInfinite_neg, not_isNaN_of_isFinite hx,
    not_isNaN_of_isFinite hy, not_isInfinite_of_isFinite hx, not_isInfinite_of_isFinite hy,
    Bool.or_self, Bool.false_eq_true, if_false, eq]
  split
  · rename_i none
    rw [none]
    exact ⟨isNaN_ofUnits _ _ _, rfl⟩
  · exact ⟨isNaN_ofUnits _ _ _, rfl⟩

theorem natAbs_sub_signedUnits
    (same : x.negative = y.negative) :
    (x.signedUnits - y.signedUnits).natAbs = ((x.units : Int) - y.units).natAbs := by
  rw [signedUnits, signedUnits, same]
  split <;> omega

theorem signedUnits_eq_of_numEq
    (h : x.numEq y) :
    x.signedUnits = y.signedUnits := by
  have zero : unitsOf 0 = 0 := rfl
  simp only [numEq, Bool.and_eq_true, beq_iff_eq, rank] at h
  obtain ⟨_, same⟩ := h
  unfold signedUnits units
  by_cases signs : x.negative = y.negative
  · have magnitude : x.magnitude = y.magnitude := by
      rw [signs] at same
      split at same <;> omega
    rw [signs, magnitude]
  · -- only the zeros have the same rank and two signs
    have none : x.magnitude = 0 ∧ y.magnitude = 0 := by
      cases hx : x.negative <;> cases hy : y.negative <;> simp [hx, hy] at signs same <;> omega
    simp [none.1, none.2, zero]

/-! ## Finite numbers -/

/-- From one on there is a magnitude 52 binades down. -/
theorem exists_lower
    {magnitude : Nat}
    (large : one.magnitude ≤ magnitude) :
    ∃ lower ≤ magnitude, binade * unitsOf lower = unitsOf magnitude := by
  obtain ⟨s, r, rfl, low, high⟩ := exists_binades magnitude
  have many : 52 < s := by
    refine Nat.lt_of_not_le fun few => ?_
    have := Nat.mul_le_mul_right binade few
    have : 52 * binade + 2 * binade ≤ one.magnitude := by decide
    omega
  obtain ⟨t, rfl⟩ : ∃ t, s = t + 52 := ⟨s - 52, by omega⟩
  have full : binade ≤ r := low.resolve_left (by omega)
  refine ⟨t * binade + r, by rw [Nat.add_mul]; omega, ?_⟩
  rw [unitsOf_binades (.inr full) (Nat.le_of_lt high),
    unitsOf_binades (.inr full) (Nat.le_of_lt high), Nat.shiftLeft_eq, Nat.shiftLeft_eq, binade_eq,
    Nat.pow_add]
  ring

theorem units_epsilon :
    epsilon.units = 1 <<< 1022 := by decide +kernel

theorem nearest_epsilon_mul
    {lower : Nat}
    (finite : lower < infinityMagnitude) :
    nearest (1 <<< 1022 * (binade * unitsOf lower)) unitsPerOne = lower := by
  have same (k l : Nat) (h : l = k + 52) :
      1 <<< k * (binade * unitsOf lower) * 1 = unitsOf lower * (1 <<< l) := by
    rw [Nat.shiftLeft_eq, Nat.shiftLeft_eq, binade_eq, h, Nat.pow_add]
    ring
  have quotient : 1 <<< 1022 * (binade * unitsOf lower) * 1 = unitsOf lower * unitsPerOne :=
    same 1022 1074 rfl
  rw [nearest_congr unitsPerOne_pos Nat.one_pos quotient, nearest_unitsOf finite]

/-- Multiplication by epsilon takes a number from one on 52 binades down. -/
theorem epsilon_mul
    (h : x.Unsigned)
    (finite : x.isFinite)
    (large : one.magnitude ≤ x.magnitude) :
    (epsilon.mul x).Unsigned ∧ binade * (epsilon.mul x).units = x.units := by
  have notInfinite : epsilon.isInfinite = false := by decide
  obtain ⟨lower, below, down⟩ := exists_lower large
  have lowerFinite := Nat.lt_of_le_of_lt below (of_decide_eq_true finite)
  simp only [mul, notInfinite, unsigned_epsilon.notNaN, unsigned_epsilon.noSign, units_epsilon,
    h.notNaN, h.noSign, not_isInfinite_of_isFinite finite, Bool.or_self, Bool.false_eq_true,
    if_false,
    bne_self_eq_false]
  refine ⟨unsigned_ofUnits _ _, ?_⟩
  rw [units_ofUnits, Binary64.units, ← down, nearest_epsilon_mul lowerFinite]

/-- So the tolerance of finite numbers is exact. -/
theorem units_tolerance
    (hx : x.isFinite)
    (hy : y.isFinite) :
    (tolerance x y).Unsigned ∧ binade * (tolerance x y).units = scale x y := by
  obtain ⟨unsigned, largest⟩ := max_one (not_isNaN_of_isFinite hx) (not_isNaN_of_isFinite hy)
  have finite : ((x.abs.max y.abs).max one).isFinite := by
    have : one.magnitude < infinityMagnitude := by decide
    simp only [isFinite, decide_eq_true_eq, largest] at hx hy ⊢
    omega
  obtain ⟨isUnsigned, units⟩ := epsilon_mul unsigned finite (by omega)
  refine ⟨isUnsigned, units.trans ?_⟩
  have unit : unitsOf one.magnitude = unitsPerOne := by decide +kernel
  rw [Binary64.units, largest, unitsOf_strictMono.monotone.map_max,
    unitsOf_strictMono.monotone.map_max, unit]
  rfl

/-- Two finite numbers are equal if their difference is at most `1 / binade` of the larger one of
their absolute values and one. -/
theorem approxEq_iff_of_finite
    (hx : x.isFinite)
    (hy : y.isFinite) :
    x.approxEq y ↔ binade * (x.sub y).units ≤ scale x y := by
  obtain ⟨notNaN, difference⟩ := units_sub hx hy
  obtain ⟨unsigned, exact⟩ := units_tolerance hx hy
  have positive : 0 < binade := by decide
  have within : (x.sub y).abs.le (tolerance x y) ↔
      binade * (x.sub y).units ≤ scale x y := by
    rw [(unsigned_abs notNaN).le_iff unsigned, ← exact, Nat.mul_le_mul_left_iff positive]
    exact unitsOf_strictMono.le_iff_le.symm
  rw [approxEq_eq, Bool.or_eq_true, within, or_iff_right_of_imp]
  intro same
  rw [difference, signedUnits_eq_of_numEq same, Int.sub_self]
  exact Nat.zero_le _

/-! ## Infinities -/

/-- Next to an infinity the tolerance is infinite. -/
theorem isInfinite_tolerance
    (hx : x.isNaN = false)
    (hy : y.isNaN = false)
    (infinite : x.isInfinite ∨ y.isInfinite) :
    tolerance x y = infinity false := by
  obtain ⟨unsigned, largest⟩ := max_one hx hy
  have isInfinite : ((x.abs.max y.abs).max one).isInfinite := by
    have : one.magnitude < infinityMagnitude := by decide
    simp only [isNaN, isInfinite, decide_eq_false_iff_not, beq_iff_eq, largest] at hx hy infinite ⊢
    omega
  have notZero : ((x.abs.max y.abs).max one).isZero = false := by
    have magnitude := beq_iff_eq.mp isInfinite
    simp only [isZero, beq_eq_false_iff_ne, magnitude]
    decide
  have nonzero : epsilon.isZero = false := by decide
  simp only [tolerance, mul, unsigned_epsilon.notNaN, unsigned_epsilon.noSign, nonzero,
    unsigned.notNaN, unsigned.noSign, isInfinite, notZero, Bool.or_self, Bool.or_true,
    Bool.false_eq_true, if_false, if_true, bne_self_eq_false]

/-- A sum with an infinity is one, unless it has an infinity of each sign. -/
theorem magnitude_add
    (hx : x.isNaN = false)
    (hy : y.isNaN = false)
    (infinite : x.isInfinite ∨ y.isInfinite)
    (agree : x.isInfinite → y.isInfinite → x.negative = y.negative) :
    (x.add y).magnitude = infinityMagnitude := by
  simp only [add, hx, hy, Bool.or_self, Bool.false_eq_true, if_false]
  split
  · rename_i ofX
    split
    · rename_i both
      simp only [Bool.and_eq_true, bne_iff_ne] at both
      exact absurd (agree ofX both.1) both.2
    · exact beq_iff_eq.mp ofX
  · rename_i notX
    have ofY := infinite.resolve_left notX
    rw [if_pos ofY]
    exact beq_iff_eq.mp ofY

/-- An infinity equals every number but NaN. -/
theorem approxEq_of_isInfinite
    (hx : x.isNaN = false)
    (hy : y.isNaN = false)
    (infinite : x.isInfinite ∨ y.isInfinite) :
    x.approxEq y := by
  rw [approxEq_eq, Bool.or_eq_true, isInfinite_tolerance hx hy infinite]
  by_cases same : x.numEq y
  · exact .inl same
  · right
    -- infinities of one sign are equal, so the difference is no NaN
    have difference : (x.sub y).magnitude = infinityMagnitude := by
      refine magnitude_add hx (y := y.neg) hy infinite fun infinite infinite' => ?_
      cases signs : x.negative <;> cases signs' : y.negative <;>
        simp_all [isInfinite, numEq, rank, neg]
    have notNaN : (x.sub y).isNaN = false := by
      simp [isNaN, difference]
    rw [(unsigned_abs notNaN).le_iff ⟨isNaN_infinity _, rfl⟩, magnitude_abs, difference]
    exact Nat.le_refl _

/-- NaN equals nothing. -/
theorem approxEq_of_isNaN
    (h : x.isNaN ∨ y.isNaN) :
    x.approxEq y = false := by
  have different : x.numEq y = false := by
    rcases h with h | h <;> simp [numEq, h]
  have difference : x.sub y = nan := by
    rcases h with h | h <;> simp [sub, add, h]
  rw [approxEq_eq, different, difference]
  rfl

/-! ## All numbers -/

/-- The numbers that equality does not tell apart. -/
inductive Agree (x y : Binary64) : Prop
  /-- Two finite numbers whose difference is within the tolerance. -/
  | finite : x.isFinite → y.isFinite → binade * (x.sub y).units ≤ scale x y → Agree x y
  /-- An infinity and any number but NaN. -/
  | infinite : x.isNaN = false → y.isNaN = false → x.isInfinite ∨ y.isInfinite → Agree x y

theorem scale_comm
    (x y : Binary64) :
    scale x y = scale y x := by
  rw [scale, scale, Nat.max_comm x.units]

/-- A difference has the same size the other way round. -/
theorem units_sub_comm
    (hx : x.isFinite)
    (hy : y.isFinite) :
    (x.sub y).units = (y.sub x).units := by
  have opposite : (x.signedUnits - y.signedUnits).natAbs =
      (y.signedUnits - x.signedUnits).natAbs := by
    omega
  rw [(units_sub hx hy).2, (units_sub hy hx).2, opposite]

theorem Agree.symm
    (h : Agree x y) :
    Agree y x := by
  cases h with
  | finite finite finite' within =>
      rw [units_sub_comm finite finite', scale_comm] at within
      exact .finite finite' finite within
  | infinite notNaN notNaN' some =>
      exact .infinite notNaN' notNaN some.symm

theorem Agree.notNaN
    (h : Agree x y) :
    ¬ (x.isNaN ∨ y.isNaN) := by
  cases h with
  | finite finite finite' _ =>
      simp [not_isNaN_of_isFinite finite, not_isNaN_of_isFinite finite']
  | infinite notNaN notNaN' _ =>
      simp [notNaN, notNaN']

theorem approxEq_iff_agree
    (x y : Binary64) :
    x.approxEq y ↔ Agree x y := by
  by_cases isNaN : x.isNaN ∨ y.isNaN
  · exact iff_of_false (by simp [approxEq_of_isNaN isNaN]) fun agree => agree.notNaN isNaN
  · rw [not_or, Bool.not_eq_true, Bool.not_eq_true] at isNaN
    obtain ⟨hx, hy⟩ := isNaN
    by_cases infinite : x.isInfinite ∨ y.isInfinite
    · exact iff_of_true (approxEq_of_isInfinite hx hy infinite) (.infinite hx hy infinite)
    · have finite := (isFinite_or_isInfinite hx).resolve_right fun h => infinite (.inl h)
      have finite' := (isFinite_or_isInfinite hy).resolve_right fun h => infinite (.inr h)
      rw [approxEq_iff_of_finite finite finite']
      refine ⟨.finite finite finite', fun agree => ?_⟩
      cases agree with
      | finite _ _ within =>
          exact within
      | infinite _ _ some =>
          exact absurd some infinite

theorem approxEq_comm
    (x y : Binary64) :
    x.approxEq y = y.approxEq x := by
  rw [Bool.eq_iff_iff, approxEq_iff_agree, approxEq_iff_agree]
  exact ⟨Agree.symm, Agree.symm⟩

theorem approxEq_self
    (h : x.isNaN = false) :
    x.approxEq x := by
  rw [approxEq_eq, numEq_self h, Bool.true_or]

end Binary64
end JsonDoc
