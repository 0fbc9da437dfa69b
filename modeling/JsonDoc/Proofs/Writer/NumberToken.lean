import JsonDoc.Proofs.Number.Token
import JsonDoc.Proofs.Syntax.Strict
import JsonDoc.Proofs.Writer.Derivation
import JsonDoc.Proofs.Writer.Number

/-!
# Written numbers are tokens

A number as it is written is a strict token for what it is as text, `integerOr_reads`, whatever the
layout is and up to where integers are written as such: zero has no sign, and what is not finite is
the literal null.
-/

namespace JsonDoc
namespace Writer

open Syntax Utf8

/-- The layout writes null for the numbers that are not finite. -/
structure WritesNull (layout : Decimal.Layout) : Prop where
  infinity : layout.infinity = "null"
  negativeInfinity : layout.negativeInfinity = "null"
  nan : layout.nan = "null"

/-- A number that is not finite is written as the literal. -/
theorem integerOr_not_finite
    (limit : Nat)
    {layout : Decimal.Layout}
    (null : WritesNull layout)
    {n : Binary64}
    (h : n.isFinite = false) :
    integerOr limit layout n = "null" := by
  have notIntegral : n.isIntegral = false := by
    simp [Binary64.isIntegral, h]
  unfold integerOr
  simp only [notIntegral, Bool.false_and, Bool.false_eq_true, if_false]
  unfold Binary64.write
  cases nan : n.isNaN with
  | true =>
      exact null.nan
  | false =>
      have infinite : n.isInfinite := by
        simp [Binary64.isFinite, Binary64.isNaN] at h nan
        simp [Binary64.isInfinite]
        omega
      simp [infinite, null.infinity, null.negativeInfinity]

/-- The normal number has the sign that is written. -/
theorem normalNumber_eq
    {n : Binary64}
    (finite : n.isFinite) :
    Tree.normalNumber n = .number n.unsignedZero := by
  unfold Tree.normalNumber Binary64.unsignedZero Binary64.signed
  obtain ⟨negative, magnitude, bound⟩ := n
  cases zero : Binary64.isZero ⟨negative, magnitude, bound⟩ with
  | true =>
      have none : magnitude = 0 := by
        simpa [Binary64.isZero] using zero
      subst none
      simp [Binary64.zero, Binary64.ofBits]
  | false =>
      simp [finite]

/-- A text that spells a number after its sign is a strict token for it. -/
theorem scalar_number
    {text : String} {x : Binary64}
    (spelled : ∃ body d, NumberText.Spells body d ∧ d.nearest = x.magnitude ∧
      text.toList = if x.negative then '-' :: body else body) :
    StrictScalar (ofText text) (.number x) := by
  obtain ⟨body, d, spells, same, eq⟩ := spelled
  obtain ⟨number, value⟩ := isNumber_encode spells x.negative
  have token := StrictScalar.number number
  have read : (⟨x.negative, d.nearest, d.nearest_lt⟩ : Binary64) = x := by
    simp [same]
  rwa [value, read, ← eq] at token

/-- A written number is a strict token for what it is as text. -/
theorem integerOr_reads
    {limit : Nat}
    (some : 0 < limit)
    {layout : Decimal.Layout}
    (sign : layout.exponentSign = "" ∨ layout.exponentSign = "+")
    (null : WritesNull layout)
    (n : Binary64) :
    StrictScalar (ofText (integerOr limit layout n)) (Tree.normalNumber n) := by
  cases finite : n.isFinite with
  | false =>
      have notZero : n.isZero = false := by
        have low : 0 < Binary64.infinityMagnitude := by decide
        simp only [Binary64.isFinite, decide_eq_false_iff_not, Nat.not_lt] at finite
        simp only [Binary64.isZero, beq_eq_false_iff_ne]
        omega
      have normal : Tree.normalNumber n = .null := by
        simp [Tree.normalNumber, notZero, finite]
      rw [integerOr_not_finite limit null finite, normal]
      exact scalar_null
  | true =>
      rw [normalNumber_eq finite]
      exact scalar_number (exists_spells_integerOr some sign finite)

end Writer
end JsonDoc
