import JsonDoc.NumberText

/-!
# Values of number tokens

No token has a NaN for its value, `isNaN_value?`. A decimal token is rounded once, which gives an
infinity at the most. A token of another base is summed up digit by digit, and the sum may pass all
bounds on the way; as it has no sign, it stays an infinity then.
-/

namespace JsonDoc
namespace Binary64

/-- A number from zero on, perhaps infinity. -/
structure Unsigned (x : Binary64) : Prop where
  notNaN : x.isNaN = false
  noSign : x.negative = false

variable {x y : Binary64}

theorem isNaN_ofUnits
    (negative : Bool)
    (num den : Nat) :
    (ofUnits negative num den).isNaN = false :=
  decide_eq_false (Nat.not_lt.mpr (Nat.min_le_right _ _))

@[simp] theorem isNaN_neg
    (x : Binary64) :
    x.neg.isNaN = x.isNaN := rfl

theorem isNaN_infinity
    (negative : Bool) :
    (infinity negative).isNaN = false := by
  simp [isNaN, infinity]

theorem unsigned_ofUnits
    (num den : Nat) :
    (ofUnits false num den).Unsigned :=
  ⟨isNaN_ofUnits _ _ _, rfl⟩

theorem unsigned_ofInt
    (n : Nat) :
    (ofInt n).Unsigned := by
  have noSign : decide ((n : Int) < 0) = false := by simp
  rw [ofInt, noSign]
  exact unsigned_ofUnits _ _

namespace Unsigned

theorem signedUnits
    (h : x.Unsigned) :
    x.signedUnits = x.units := by
  simp [Binary64.signedUnits, h.noSign]

/-- A sum of numbers without sign has none, and infinity stays infinity. -/
theorem add
    (h : x.Unsigned)
    (k : y.Unsigned) :
    (x.add y).Unsigned := by
  unfold Binary64.add
  simp only [h.notNaN, k.notNaN, Bool.or_self, h.noSign, k.noSign, bne_self_eq_false,
    Bool.and_false,
    Bool.and_self, Bool.false_eq_true, if_false]
  split
  · exact h
  · split
    · exact k
    · split
      · exact unsigned_ofUnits _ _
      · have noSign : decide (x.signedUnits + y.signedUnits < 0) = false := by
          rw [h.signedUnits, k.signedUnits, decide_eq_false_iff_not]
          omega
        rw [noSign]
        exact unsigned_ofUnits _ _

/-- So has a product, unless infinity is multiplied by zero. -/
theorem mul
    (h : x.Unsigned)
    (k : y.Unsigned)
    (finite : y.isInfinite = false)
    (some : y.isZero = false) :
    (x.mul y).Unsigned := by
  unfold Binary64.mul
  simp only [h.notNaN, k.notNaN, finite, some, Bool.or_self, Bool.or_false, h.noSign, k.noSign,
    bne_self_eq_false, Bool.false_eq_true, if_false]
  split
  · rename_i infinite
    split
    · rename_i zero
      simp only [isZero, isInfinite, beq_iff_eq] at zero infinite
      exact absurd (zero.symm.trans infinite) (by decide)
    · exact ⟨isNaN_infinity _, rfl⟩
  · exact unsigned_ofUnits _ _

end Unsigned
end Binary64

namespace Decimal

theorem nearest_le
    (d : Decimal) :
    d.nearest ≤ Binary64.infinityMagnitude := by
  unfold nearest
  split
  · exact Nat.zero_le _
  · split
    · split
      · exact Nat.le_refl _
      · exact Nat.min_le_right _ _
    · split
      · exact Nat.zero_le _
      · exact Nat.min_le_right _ _

theorem isNaN_toBinary64
    (d : Decimal) :
    d.toBinary64.isNaN = false :=
  decide_eq_false (Nat.not_lt.mpr d.nearest_le)

end Decimal

namespace NumberText

open Binary64

/-- What a base must be for its digits to be summed up without a NaN. -/
def IsBase (base : Nat) : Prop :=
  (ofInt base).isInfinite = false ∧ (ofInt base).isZero = false

theorem unsigned_pushDigit
    {base : Nat}
    (isBase : IsBase base)
    {total next : Binary64} {c : Char}
    (unsigned : total.Unsigned)
    (pushed : pushDigit base total c = some next) :
    next.Unsigned := by
  unfold pushDigit at pushed
  split at pushed
  · simp at pushed
  · split at pushed
    · cases pushed
      exact (unsigned.mul (unsigned_ofInt _) isBase.1 isBase.2).add (unsigned_ofInt _)
    · simp at pushed

theorem unsigned_foldlM
    {base : Nat}
    (isBase : IsBase base)
    (digits : List Char) :
    ∀ {total n : Binary64}, total.Unsigned → digits.foldlM (pushDigit base) total = some n →
      n.Unsigned := by
  induction digits with
  | nil =>
      intro total n unsigned sum
      cases sum
      exact unsigned
  | cons c digits ih =>
      intro total n unsigned sum
      rw [List.foldlM_cons] at sum
      obtain ⟨next, pushed, sum⟩ := Option.bind_eq_some_iff.mp sum
      exact ih (unsigned_pushDigit isBase unsigned pushed) sum

theorem isNaN_radix?
    {base : Nat}
    (isBase : IsBase base)
    {digits : List Char} {n : Binary64}
    (value : radix? base digits = some n) :
    n.isNaN = false := by
  unfold radix? at value
  split at value
  · simp at value
  · exact (unsigned_foldlM isBase digits ⟨rfl, rfl⟩ value).notNaN

theorem isBase_two :
    IsBase 2 := by
  unfold IsBase
  decide +kernel

theorem isBase_eight :
    IsBase 8 := by
  unfold IsBase
  decide +kernel

theorem isBase_sixteen :
    IsBase 16 := by
  unfold IsBase
  decide +kernel

theorem isNaN_magnitude?
    {body : List Char} {n : Binary64}
    (value : magnitude? body = some n) :
    n.isNaN = false := by
  have decimal {text : List Char} {n : Binary64}
      (value : (if text.head?.any Char.isDigit then (decimal? text).map Decimal.toBinary64
        else none) = some n) : n.isNaN = false := by
    split at value
    · obtain ⟨d, _, rfl⟩ := Option.map_eq_some_iff.mp value
      exact d.isNaN_toBinary64
    · simp at value
  unfold magnitude? at value
  simp only at value
  split at value
  · split at value
    · exact isNaN_radix? isBase_sixteen value
    · split at value
      · exact isNaN_radix? isBase_two value
      · split at value
        · exact isNaN_radix? isBase_eight value
        · exact decimal value
  · exact decimal value

/-- No token is a NaN. -/
theorem isNaN_value?
    (text : List Char)
    (n : Binary64)
    (value : value? text = some n) :
    n.isNaN = false := by
  unfold value? at value
  split at value
  · obtain ⟨m, magnitude, rfl⟩ := Option.map_eq_some_iff.mp value
    rw [isNaN_neg]
    exact isNaN_magnitude? magnitude
  · exact isNaN_magnitude? value
  · exact isNaN_magnitude? value

end NumberText
end JsonDoc
