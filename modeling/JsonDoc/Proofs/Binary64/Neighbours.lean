import JsonDoc.Proofs.Binary64.Units

/-!
# Between neighbouring magnitudes

Rounding takes the nearer one of two neighbouring magnitudes, and so it changes halfway between
them: `rounded_le_of_lt` and `two_mul_le_of_rounded_le`. What a power of two does to a number of
units it does to the nearest magnitude, `rounded_mul_two_pow`.
-/

namespace JsonDoc
namespace Binary64

variable {x k s : Nat}

/-- The magnitude nearest to a number of units, as if there were no largest one. -/
def rounded (x : Nat) : Nat := surplusBits x * binade + kept x 1

theorem nearest_eq_rounded
    (x : Nat) :
    nearest x 1 = min (rounded x) infinityMagnitude := by
  rw [nearest, rounded, kept, Nat.div_one]

/-! ## Neighbours -/

theorem unitsOf_rounded
    (x : Nat) :
    unitsOf (rounded x) = kept x 1 <<< surplusBits x := by
  obtain ⟨low, high⟩ := kept_bounds x 1
  rw [Nat.div_one] at low
  exact unitsOf_binades low high

/-- The error is at most one half of the last bit that is kept. -/
theorem rounded_near
    (x : Nat) :
    2 * x ≤ 2 * unitsOf (rounded x) + 2 ^ surplusBits x ∧
      2 * unitsOf (rounded x) ≤ 2 * x + 2 ^ surplusBits x := by
  have near := roundDivEven_near x (Nat.two_pow_pos (surplusBits x))
  have steps : kept x 1 = roundDivEven x (2 ^ surplusBits x) := by
    rw [kept, Nat.div_one, Nat.shiftLeft_eq, Nat.one_mul]
  rwa [← steps, ← Nat.shiftLeft_eq, ← unitsOf_rounded] at near

/-- The next magnitude is at least one step away. -/
theorem unitsOf_succ_ge
    {r : Nat}
    (low : s = 0 ∨ binade ≤ r)
    (high : r ≤ 2 * binade) :
    r <<< s + 2 ^ s ≤ unitsOf (s * binade + r + 1) := by
  rcases Nat.lt_or_eq_of_le high with inside | rfl
  · have next : s = 0 ∨ binade ≤ r + 1 := low.imp_right Nat.le_succ_of_le
    rw [Nat.add_assoc, unitsOf_binades next inside, Nat.shiftLeft_eq, Nat.shiftLeft_eq,
      Nat.succ_mul]
  · -- the next magnitude is the second one of the next binade
    have carry : s * binade + 2 * binade + 1 = (s + 1) * binade + (binade + 1) := by ring
    have small : binade + 1 ≤ 2 * binade := by decide
    have steps : (binade + 1) * 2 ^ (s + 1) = 2 * binade * 2 ^ s + 2 * 2 ^ s := by ring
    rw [carry, unitsOf_binades (.inr (Nat.le_add_right _ _)) small, Nat.shiftLeft_eq,
      Nat.shiftLeft_eq, steps]
    omega

/-- So is the magnitude before, unless it is in another binade. -/
theorem unitsOf_pred_le
    {r : Nat}
    (low : s = 0 ∨ binade ≤ r)
    (high : r + 1 ≤ 2 * binade) :
    unitsOf (s * binade + (r + 1) - 1) + 2 ^ s ≤ (r + 1) <<< s := by
  rw [← Nat.add_assoc, Nat.add_sub_cancel, unitsOf_binades low (Nat.le_of_succ_le high),
    Nat.shiftLeft_eq, Nat.shiftLeft_eq, Nat.succ_mul]

/-- The number is at most halfway to the next magnitude. -/
theorem two_mul_le
    (x : Nat) :
    2 * x ≤ unitsOf (rounded x) + unitsOf (rounded x + 1) := by
  obtain ⟨low, high⟩ := kept_bounds x 1
  rw [Nat.div_one] at low
  have next := unitsOf_succ_ge low high
  rw [← unitsOf_rounded] at next
  have near := (rounded_near x).1
  rw [rounded] at near next ⊢
  omega

/-- The first magnitude of a binade is not rounded up to. -/
theorem unitsOf_rounded_le
    (first : kept x 1 = binade)
    (some : surplusBits x ≠ 0) :
    unitsOf (rounded x) ≤ x := by
  obtain ⟨low, _⟩ := cut_bounds x 1
  rw [Nat.div_one] at low
  have full := low.resolve_left some
  rw [Nat.shiftLeft_eq, Nat.one_mul, Nat.le_div_iff_mul_le (Nat.two_pow_pos _)] at full
  rwa [unitsOf_rounded, first, Nat.shiftLeft_eq]

/-- The number is at least halfway from the magnitude before. -/
theorem le_two_mul
    (x : Nat) :
    unitsOf (rounded x - 1) + unitsOf (rounded x) ≤ 2 * x := by
  obtain ⟨low, high⟩ := kept_bounds x 1
  rw [Nat.div_one] at low
  have before := unitsOf_strictMono.monotone (Nat.sub_le (rounded x) 1)
  cases bits : kept x 1 with
  | zero =>
      have zero : unitsOf (rounded x) = 0 := by
        rw [unitsOf_rounded, bits, Nat.zero_shiftLeft]
      omega
  | succ r =>
      rw [bits] at low high
      by_cases inside : surplusBits x = 0 ∨ binade ≤ r
      · have step := unitsOf_pred_le inside high
        rw [← bits, ← unitsOf_rounded] at step
        have near := (rounded_near x).2
        rw [rounded] at near step ⊢
        omega
      · have exact := @unitsOf_rounded_le x (by omega) (by omega)
        omega

/-! ## Halfway -/

theorem halves_mono
    {j k : Nat}
    (h : j ≤ k) :
    unitsOf j + unitsOf (j + 1) ≤ unitsOf k + unitsOf (k + 1) :=
  Nat.add_le_add (unitsOf_strictMono.monotone h) (unitsOf_strictMono.monotone (Nat.succ_le_succ h))

theorem rounded_le_of_lt
    (below : 2 * x < unitsOf k + unitsOf (k + 1)) :
    rounded x ≤ k := by
  by_contra above
  obtain ⟨j, eq⟩ := Nat.exists_eq_add_of_lt (Nat.lt_of_not_le above)
  have later := halves_mono (show k ≤ k + j by omega)
  have least := le_two_mul x
  rw [eq, Nat.add_sub_cancel] at least
  omega

theorem two_mul_le_of_rounded_le
    (h : rounded x ≤ k) :
    2 * x ≤ unitsOf k + unitsOf (k + 1) :=
  Nat.le_trans (two_mul_le x) (halves_mono h)

/-- Rounding keeps the order. -/
theorem rounded_mono :
    Monotone rounded := by
  intro x y le
  by_contra above
  have least : unitsOf (rounded y) + unitsOf (rounded y + 1) ≤ 2 * x := by
    have later := halves_mono (show rounded y ≤ rounded x - 1 by omega)
    have atLeast := le_two_mul x
    rw [Nat.sub_add_cancel (by omega)] at later
    omega
  -- the two numbers are the same tie
  have same : x = y := by
    have most := two_mul_le y
    omega
  subst same
  exact above (Nat.le_refl _)

/-- Less than half of the way to the next magnitude is rounded off. -/
theorem rounded_eq
    (low : unitsOf k ≤ x)
    (high : 2 * x < unitsOf k + unitsOf (k + 1)) :
    rounded x = k := by
  refine Nat.le_antisymm (rounded_le_of_lt high) ?_
  by_contra below
  have most := two_mul_le_of_rounded_le (show rounded x ≤ k - 1 by omega)
  have before := unitsOf_strictMono (show k - 1 < k by omega)
  rw [Nat.sub_add_cancel (by omega)] at most
  omega

theorem rounded_unitsOf
    (k : Nat) :
    rounded (unitsOf k) = k := by
  have next := unitsOf_strictMono (show k < k + 1 from Nat.lt_succ_self k)
  exact rounded_eq (Nat.le_refl _) (by omega)

/-! ## Powers of two -/

theorem log2_mul_two_pow
    (positive : x ≠ 0)
    (b : Nat) :
    (x * 2 ^ b).log2 = x.log2 + b := by
  obtain ⟨low, high⟩ := (Nat.log2_eq_iff positive).mp rfl
  have scaled : x * 2 ^ b ≠ 0 := Nat.mul_ne_zero positive (Nat.ne_of_gt (Nat.two_pow_pos b))
  rw [Nat.log2_eq_iff scaled, Nat.pow_add, Nat.add_right_comm, Nat.pow_add]
  exact ⟨Nat.mul_le_mul_right _ low, Nat.mul_lt_mul_of_pos_right high (Nat.two_pow_pos b)⟩

theorem rounded_mul_two_pow
    (large : binade ≤ x)
    (b : Nat) :
    rounded (x * 2 ^ b) = rounded x + b * binade := by
  have positive : x ≠ 0 := Nat.ne_of_gt (Nat.lt_of_lt_of_le (by decide) large)
  have bits : 52 ≤ x.log2 := (Nat.le_log2 positive).mpr (binade_eq ▸ large)
  have surplus : surplusBits (x * 2 ^ b) = surplusBits x + b := by
    rw [surplusBits, surplusBits, log2_mul_two_pow positive]
    omega
  have same : kept (x * 2 ^ b) 1 = kept x 1 := by
    rw [kept, kept, Nat.div_one, Nat.div_one, surplus, Nat.shiftLeft_eq, Nat.shiftLeft_eq,
      Nat.pow_add, Nat.one_mul, Nat.one_mul, Nat.mul_comm x, Nat.mul_comm (2 ^ surplusBits x),
      roundDivEven_mul (Nat.two_pow_pos b)]
  rw [rounded, rounded, surplus, same]
  ring

/-- Beyond a number of binades the units are whole multiples of a power of two. -/
theorem exists_shifted
    (large : binade ≤ k) :
    ∃ s r, k = s * binade + r ∧ binade ≤ r ∧ r < 2 * binade ∧ unitsOf k = r * 2 ^ s := by
  obtain ⟨s, r, rfl, low, high⟩ := exists_binades k
  have full : binade ≤ r := by
    rcases low with rfl | full
    · omega
    · exact full
  exact ⟨s, r, rfl, full, high, by rw [unitsOf_binades low (Nat.le_of_lt high), Nat.shiftLeft_eq]⟩

theorem unitsOf_add_binades
    (large : binade ≤ k)
    (b : Nat) :
    unitsOf (k + b * binade) = unitsOf k * 2 ^ b := by
  obtain ⟨s, r, rfl, low, high, units⟩ := exists_shifted large
  have later : s * binade + r + b * binade = (s + b) * binade + r := by ring
  rw [units, later, unitsOf_binades (.inr low) (Nat.le_of_lt high), Nat.shiftLeft_eq, Nat.pow_add]
  ring

theorem two_pow_dvd_unitsOf
    (large : (s + 1) * binade ≤ k) :
    2 ^ s ∣ unitsOf k := by
  have first : binade ≤ k := Nat.le_trans (Nat.le_mul_of_pos_left _ (Nat.succ_pos s)) large
  obtain ⟨t, r, rfl, _, high, units⟩ := exists_shifted first
  have enough : s ≤ t := by
    have positive : 0 < binade := by decide
    have : (s + 1) * binade < (t + 2) * binade := by
      rw [Nat.add_mul t]
      omega
    have := Nat.lt_of_mul_lt_mul_right this
    omega
  rw [units]
  exact (Nat.pow_dvd_pow 2 enough).mul_left r

theorem two_pow_dvd_halfway
    (large : (s + 1) * binade ≤ k) :
    2 ^ s ∣ unitsOf k + unitsOf (k + 1) :=
  Nat.dvd_add (two_pow_dvd_unitsOf large) (two_pow_dvd_unitsOf (Nat.le_succ_of_le large))

end Binary64
end JsonDoc
