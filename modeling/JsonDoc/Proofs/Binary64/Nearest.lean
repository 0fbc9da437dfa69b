import Mathlib
import JsonDoc.Binary64.Arithmetic

/-!
# Rounding to the nearest magnitude

`Binary64.nearest` depends on the quotient alone, `nearest_congr`, and it gives a finite magnitude
back from its own units, `nearest_unitsOf`. Quotients that are too large become infinite, and
quotients below one half become zero.
-/

namespace JsonDoc
namespace Binary64

variable {k num den magnitude : Nat}

theorem roundDivEven_mul
    (hk : 0 < k)
    (num den : Nat) :
    roundDivEven (k * num) (k * den) = roundDivEven num den := by
  have quotient : k * num / (k * den) = num / den := Nat.mul_div_mul_left num den hk
  have twice : 2 * (k * num % (k * den)) = k * (2 * (num % den)) := by
    rw [Nat.mul_mod_mul_left]
    ring
  have above : k * den < k * (2 * (num % den)) ↔ den < 2 * (num % den) :=
    Nat.mul_lt_mul_left hk
  have tie : k * (2 * (num % den)) = k * den ↔ 2 * (num % den) = den :=
    Nat.mul_right_inj (Nat.ne_of_gt hk)
  simp only [roundDivEven, quotient, twice, above, tie]

theorem roundDivEven_exact
    (q : Nat)
    (h : 0 < den) :
    roundDivEven (q * den) den = q := by
  have none : q * den % den = 0 := Nat.mul_mod_left q den
  have notUp : ¬ (den < 0 ∨ (0 = den ∧ q % 2 = 1)) := by omega
  simp only [roundDivEven, none, Nat.mul_div_cancel q h, Nat.mul_zero, if_neg notUp]

theorem nearest_mul
    (hk : 0 < k)
    (num den : Nat) :
    nearest (k * num) (k * den) = nearest num den := by
  have shifted (s : Nat) : (k * den) <<< s = k * (den <<< s) := by
    rw [Nat.shiftLeft_eq, Nat.shiftLeft_eq, Nat.mul_assoc]
  simp only [nearest, Nat.mul_div_mul_left num den hk, shifted, roundDivEven_mul hk]

/-- The nearest magnitude, by the bits that are dropped. -/
theorem nearest_eq
    {surplus : Nat}
    (h : surplusBits (num / den) = surplus) :
    nearest num den =
      min (surplus * binade + roundDivEven num (den <<< surplus)) infinityMagnitude := by
  subst h
  rfl

/-- Equal quotients have the same nearest magnitude. -/
theorem nearest_congr
    {num' den' : Nat}
    (hd : 0 < den)
    (hd' : 0 < den')
    (same : num * den' = num' * den) :
    nearest num den = nearest num' den' :=
  calc
    nearest num den = nearest (den' * num) (den' * den) := (nearest_mul hd' num den).symm
    _ = nearest (den * num') (den * den') := by
        rw [Nat.mul_comm den' num, same, Nat.mul_comm num' den, Nat.mul_comm den' den]
    _ = nearest num' den' := nearest_mul hd num' den'

/-! ## Finite magnitudes -/

theorem binade_eq :
    binade = 2 ^ 52 := by decide

/-- An integer of 53 bits with `s` zero bits after it is kept as it is. -/
theorem surplusBits_shiftLeft
    {n : Nat}
    (low : binade ≤ n)
    (high : n < 2 * binade)
    (s : Nat) :
    surplusBits (n <<< s) = s := by
  have bits : (n <<< s).log2 = s + 52 := by
    have positive : n <<< s ≠ 0 := by
      rw [Nat.shiftLeft_eq]
      have := Nat.two_pow_pos s
      have : 0 < n := Nat.lt_of_lt_of_le (by decide) low
      positivity
    rw [Nat.log2_eq_iff positive, Nat.shiftLeft_eq, Nat.pow_add, Nat.add_assoc, Nat.pow_add]
    constructor
    · rw [Nat.mul_comm, ← binade_eq]
      exact Nat.mul_le_mul_right _ low
    · rw [Nat.mul_comm]
      refine Nat.mul_lt_mul_of_pos_left ?_ (Nat.two_pow_pos s)
      exact Nat.lt_of_lt_of_eq high (by decide)
  rw [surplusBits, bits, Nat.add_sub_cancel]

theorem surplusBits_of_lt
    {n : Nat}
    (h : n < 2 * binade) :
    surplusBits n = 0 := by
  have bits : n.log2 ≤ 52 := by
    by_cases zero : n = 0
    · simp [zero]
    · refine Nat.le_of_lt_succ ((Nat.log2_lt zero).mpr ?_)
      exact Nat.lt_of_lt_of_eq h (by decide)
  exact Nat.sub_eq_zero_of_le bits

/-- A finite magnitude is nearest to its own units. -/
theorem nearest_unitsOf
    (finite : magnitude < infinityMagnitude) :
    nearest (unitsOf magnitude) 1 = magnitude := by
  unfold unitsOf
  split
  · rename_i subnormal
    have surplus : surplusBits (magnitude / 1) = 0 := surplusBits_of_lt (by omega)
    have exact := roundDivEven_exact magnitude Nat.one_pos
    rw [Nat.mul_one] at exact
    rw [nearest_eq surplus, Nat.shiftLeft_zero, exact]
    omega
  · rename_i normal
    have low : 0 < binade := by decide
    have high := Nat.mod_lt magnitude low
    have exponent : 1 ≤ magnitude / binade := (Nat.one_le_div_iff low).mpr (Nat.le_of_not_lt normal)
    have whole := Nat.div_add_mod magnitude binade
    have surplus : surplusBits ((binade + magnitude % binade) <<< (magnitude / binade - 1) / 1) =
        magnitude / binade - 1 := by
      rw [Nat.div_one]
      exact surplusBits_shiftLeft (by omega) (by omega) _
    have kept : roundDivEven ((binade + magnitude % binade) <<< (magnitude / binade - 1))
        (1 <<< (magnitude / binade - 1)) = binade + magnitude % binade := by
      rw [Nat.shiftLeft_eq, Nat.shiftLeft_eq, Nat.one_mul]
      exact roundDivEven_exact _ (Nat.two_pow_pos _)
    have carry : (magnitude / binade - 1) * binade + binade = binade * (magnitude / binade) := by
      rw [← Nat.succ_mul, Nat.succ_eq_add_one, Nat.sub_add_cancel exponent, Nat.mul_comm]
    rw [nearest_eq surplus, kept, ← Nat.add_assoc, carry, whole,
      Nat.min_eq_left (Nat.le_of_lt finite)]

/-! ## Beyond the finite magnitudes -/

theorem nearest_of_large
    {bits : Nat}
    (many : 2099 ≤ bits)
    (h : 1 <<< bits ≤ num / den) :
    nearest num den = infinityMagnitude := by
  rw [Nat.shiftLeft_eq, Nat.one_mul] at h
  have positive : num / den ≠ 0 := Nat.ne_of_gt (Nat.lt_of_lt_of_le (Nat.two_pow_pos bits) h)
  have log : bits ≤ (num / den).log2 := (Nat.le_log2 positive).mpr h
  have surplus : 2047 ≤ surplusBits (num / den) := by
    unfold surplusBits
    omega
  have above : infinityMagnitude ≤ surplusBits (num / den) * binade :=
    Nat.le_trans (by decide) (Nat.mul_le_mul_right binade surplus)
  rw [nearest_eq rfl, Nat.min_eq_right (Nat.le_trans above (Nat.le_add_right _ _))]

theorem nearest_of_small
    (h : 2 * num < den) :
    nearest num den = 0 := by
  have none : num / den = 0 := Nat.div_eq_of_lt (by omega)
  have rest : num % den = num := Nat.mod_eq_of_lt (by omega)
  have notUp : ¬ (den < 2 * num ∨ (2 * num = den ∧ 0 % 2 = 1)) := by omega
  have surplus : surplusBits (num / den) = 0 := by
    rw [none]
    decide
  rw [nearest_eq surplus, Nat.shiftLeft_zero]
  simp only [roundDivEven, none, rest, if_neg notUp]
  simp

end Binary64
end JsonDoc
