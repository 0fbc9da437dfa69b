import JsonDoc.Proofs.Binary64.Nearest

/-!
# Magnitudes in units

Every magnitude is some binades and an integer of 53 bits more, and the integer shifted by the
number of binades counts its units: `unitsOf_binades`. So magnitudes are in the order of their
units, `unitsOf_strictMono`, a rounded quotient keeps an integer of 53 bits, `unitsOf_nearest`, and
such an integer with zero bits after it is not rounded at all, `unitsOf_nearest_shiftLeft`.
-/

namespace JsonDoc
namespace Binary64

variable {s r x num den : Nat}

/-- The integer may reach `2 * binade`, the first one of the next binade. -/
theorem unitsOf_binades
    (low : s = 0 ∨ binade ≤ r)
    (high : r ≤ 2 * binade) :
    unitsOf (s * binade + r) = r <<< s := by
  have positive : 0 < binade := by decide
  by_cases small : r < binade
  · obtain rfl : s = 0 := low.resolve_right (Nat.not_le.mpr small)
    rw [Nat.zero_mul, Nat.zero_add, Nat.shiftLeft_zero]
    exact if_pos small
  · obtain ⟨fraction, rfl⟩ := Nat.exists_eq_add_of_le (Nat.le_of_not_lt small)
    have split : s * binade + (binade + fraction) = fraction + (s + 1) * binade := by ring
    have normal : ¬ fraction + (s + 1) * binade < binade := by
      have := Nat.le_mul_of_pos_left binade (Nat.succ_pos s)
      omega
    rw [split, unitsOf, if_neg normal, Nat.add_mul_mod_self_right,
      Nat.add_mul_div_right _ _ positive]
    rcases Nat.lt_or_eq_of_le (show fraction ≤ binade by omega) with inside | rfl
    · rw [Nat.mod_eq_of_lt inside, Nat.div_eq_of_lt inside, Nat.zero_add, Nat.add_sub_cancel]
    · rw [Nat.mod_self, Nat.div_self positive, Nat.add_zero, ← Nat.two_mul, Nat.shiftLeft_eq,
        Nat.shiftLeft_eq, Nat.add_sub_cancel_left, Nat.pow_succ]
      ring

theorem exists_binades
    (magnitude : Nat) :
    ∃ s r, magnitude = s * binade + r ∧ (s = 0 ∨ binade ≤ r) ∧ r < 2 * binade := by
  have positive : 0 < binade := by decide
  have whole := Nat.div_add_mod' magnitude binade
  have rest := Nat.mod_lt magnitude positive
  cases exponent : magnitude / binade with
  | zero =>
      refine ⟨0, magnitude % binade, ?_, .inl rfl, by omega⟩
      rw [exponent] at whole
      exact whole.symm
  | succ s =>
      refine ⟨s, binade + magnitude % binade, ?_, .inr (Nat.le_add_right _ _), by omega⟩
      rw [exponent, Nat.succ_mul] at whole
      omega

theorem unitsOf_strictMono :
    StrictMono unitsOf := by
  refine strictMono_nat_of_lt_succ fun magnitude => ?_
  obtain ⟨s, r, rfl, low, high⟩ := exists_binades magnitude
  have next : s = 0 ∨ binade ≤ r + 1 := low.imp_right Nat.le_succ_of_le
  rw [Nat.add_assoc, unitsOf_binades low (Nat.le_of_lt high), unitsOf_binades next high,
    Nat.shiftLeft_eq, Nat.shiftLeft_eq]
  exact Nat.mul_lt_mul_of_pos_right (Nat.lt_succ_self r) (Nat.two_pow_pos s)

theorem isZero_iff_units
    {x : Binary64} :
    x.isZero = true ↔ x.units = 0 := by
  have zero : unitsOf 0 = 0 := by decide
  have same := unitsOf_strictMono.injective.eq_iff (a := x.magnitude) (b := 0)
  rw [zero] at same
  rw [isZero, beq_iff_eq, units, same]

/-! ## Rounded quotients -/

theorem div_le_roundDivEven
    (num den : Nat) :
    num / den ≤ roundDivEven num den := by
  simp only [roundDivEven]
  split <;> omega

theorem roundDivEven_le
    (num den : Nat) :
    roundDivEven num den ≤ num / den + 1 := by
  simp only [roundDivEven]
  split <;> omega

/-- The error is at most one half. -/
theorem roundDivEven_near
    (num : Nat)
    (positive : 0 < den) :
    2 * num ≤ 2 * (roundDivEven num den * den) + den ∧
      2 * (roundDivEven num den * den) ≤ 2 * num + den := by
  have whole := Nat.div_add_mod' num den
  have rest := Nat.mod_lt num positive
  simp only [roundDivEven]
  split
  · rw [Nat.add_mul, Nat.one_mul]
    omega
  · omega

/-- The integer of 53 bits that is left of a quotient. -/
def kept
    (num den : Nat) : Nat :=
  roundDivEven num (den <<< surplusBits (num / den))

/-- The bits that are left of a quotient are 53, or all that there are. -/
theorem cut_bounds
    (num den : Nat) :
    (surplusBits (num / den) = 0 ∨ binade ≤ num / (den <<< surplusBits (num / den))) ∧
      num / (den <<< surplusBits (num / den)) < 2 * binade := by
  have cut : num / (den <<< surplusBits (num / den)) = num / den / 2 ^ surplusBits (num / den) := by
    rw [Nat.shiftLeft_eq, Nat.div_div_eq_div_mul]
  rw [cut]
  constructor
  · rcases Nat.eq_zero_or_pos (surplusBits (num / den)) with none | some
    · exact .inl none
    · right
      have bits : surplusBits (num / den) + 52 = (num / den).log2 := by
        unfold surplusBits at some ⊢
        omega
      have nonzero : num / den ≠ 0 := by
        intro zero
        rw [zero] at some
        exact absurd some (by decide)
      rw [Nat.le_div_iff_mul_le (Nat.two_pow_pos _), binade_eq, ← Nat.pow_add, Nat.add_comm, bits]
      exact Nat.log2_self_le nonzero
  · rw [Nat.div_lt_iff_lt_mul (Nat.two_pow_pos _)]
    refine Nat.lt_of_lt_of_le Nat.lt_log2_self ?_
    rw [binade_eq, ← Nat.pow_succ', ← Nat.pow_add]
    refine Nat.pow_le_pow_right (by decide) ?_
    unfold surplusBits
    omega

theorem kept_bounds
    (num den : Nat) :
    (surplusBits (num / den) = 0 ∨ binade ≤ kept num den) ∧ kept num den ≤ 2 * binade := by
  obtain ⟨low, high⟩ := cut_bounds num den
  exact ⟨low.imp_right fun full => Nat.le_trans full (div_le_roundDivEven _ _),
    Nat.le_trans (roundDivEven_le _ _) high⟩

theorem nearest_eq_binades
    (finite : surplusBits (num / den) ≤ 2044) :
    nearest num den = surplusBits (num / den) * binade + kept num den ∧
      nearest num den < infinityMagnitude := by
  have most := (kept_bounds num den).2
  have binades := Nat.mul_le_mul_right binade finite
  have below : surplusBits (num / den) * binade + kept num den < infinityMagnitude := by
    have : 2044 * binade + 2 * binade < infinityMagnitude := by decide
    omega
  have eq : nearest num den = surplusBits (num / den) * binade + kept num den :=
    Nat.min_eq_left (Nat.le_of_lt below)
  exact ⟨eq, eq ▸ below⟩

/-- What is left of a quotient counts the units of the nearest magnitude. -/
theorem unitsOf_nearest
    (finite : surplusBits (num / den) ≤ 2044) :
    unitsOf (nearest num den) = kept num den <<< surplusBits (num / den) := by
  obtain ⟨low, high⟩ := kept_bounds num den
  rw [(nearest_eq_binades finite).1, unitsOf_binades low high]

/-! ## Exact results -/

theorem exists_unitsOf
    (hs : s ≤ 2044)
    (hx : x ≤ 2 * binade) :
    ∃ magnitude < infinityMagnitude, unitsOf magnitude = x <<< s := by
  have room : 2044 * binade + 2 * binade < infinityMagnitude := by decide
  induction s generalizing x with
  | zero =>
      refine ⟨0 * binade + x, ?_, unitsOf_binades (.inl rfl) hx⟩
      omega
  | succ s ih =>
      by_cases full : binade ≤ x
      · refine ⟨(s + 1) * binade + x, ?_, unitsOf_binades (.inr full) hx⟩
        have := Nat.mul_le_mul_right binade hs
        omega
      · obtain ⟨magnitude, finite, units⟩ := ih (x := 2 * x) (by omega) (by omega)
        refine ⟨magnitude, finite, units.trans ?_⟩
        rw [Nat.shiftLeft_eq, Nat.shiftLeft_eq, Nat.pow_succ]
        ring

/-- An integer of 53 bits with zero bits after it is not rounded. -/
theorem unitsOf_nearest_shiftLeft
    (hs : s ≤ 2044)
    (hx : x ≤ 2 * binade) :
    nearest (x <<< s) 1 < infinityMagnitude ∧ unitsOf (nearest (x <<< s) 1) = x <<< s := by
  obtain ⟨magnitude, finite, units⟩ := exists_unitsOf hs hx
  have same : nearest (x <<< s) 1 = magnitude := by
    rw [← units, nearest_unitsOf finite]
  exact ⟨same ▸ finite, same ▸ units⟩

theorem surplusBits_le
    {n k : Nat}
    (h : n < (2 * binade) <<< k) :
    surplusBits n ≤ k := by
  have two : 2 * binade = 2 ^ 53 := by decide
  rw [Nat.shiftLeft_eq, two, ← Nat.pow_add] at h
  by_cases zero : n = 0
  · simp [zero, surplusBits]
  · have := (Nat.log2_lt zero).mpr h
    unfold surplusBits
    omega

theorem mul_unitsPerOne
    (n : Nat) :
    n * unitsPerOne = n <<< 1074 := by
  have shifted (k : Nat) : n * (1 <<< k) = n <<< k := by
    rw [Nat.shiftLeft_eq, Nat.shiftLeft_eq, Nat.one_mul]
  exact shifted 1074

theorem isFinite_ofUnits
    (negative : Bool)
    (h : nearest num den < infinityMagnitude) :
    (ofUnits negative num den).isFinite :=
  decide_eq_true h

theorem units_ofUnits
    (negative : Bool)
    (num den : Nat) :
    (ofUnits negative num den).units = unitsOf (nearest num den) := rfl

theorem negative_ofUnits
    (negative : Bool)
    (num den : Nat) :
    (ofUnits negative num den).negative = negative := rfl

/-- Integers of 53 bits are numbers. -/
theorem units_ofUnits_one
    (negative : Bool)
    (hx : x ≤ 2 * binade) :
    (ofUnits negative (x * unitsPerOne) 1).isFinite ∧
      (ofUnits negative (x * unitsPerOne) 1).units = x * unitsPerOne := by
  rw [mul_unitsPerOne]
  obtain ⟨finite, units⟩ := unitsOf_nearest_shiftLeft (s := 1074) (by decide) hx
  exact ⟨isFinite_ofUnits negative finite, units⟩

theorem units_ofInt
    {n : Int}
    (hn : n.natAbs ≤ 2 * binade) :
    (ofInt n).isFinite ∧ (ofInt n).units = n.natAbs * unitsPerOne :=
  units_ofUnits_one _ hn

end Binary64
end JsonDoc
