import JsonDoc.Proofs.Syntax.Content
import JsonDoc.Proofs.Writer.Canonical
import JsonDoc.Tree.Equality

/-!
# Reading, writing and reading again

Every tree that either dialect reads has a canonical text that the strict dialect reads, as the
normal tree. That is equal to the first one exactly if all numbers are finite: a number that is too
large for a double is read as an infinity, and an infinity is written as null.
-/

namespace JsonDoc

namespace Syntax

/-! ## What is read can be written -/

theorem strictScalar_fits
    {text : List UInt8} {tree : Tree}
    (h : StrictScalar text tree) :
    tree.Ordered ∧ tree.RawValid := by
  cases h with
  | null =>
      exact ⟨.null, .null⟩
  | true | false =>
      exact ⟨.boolean _, .boolean _⟩
  | number _ =>
      exact ⟨.number _, .number _⟩
  | string content =>
      exact ⟨.string _, .string (isContent_toText content)⟩

theorem relaxedScalar_fits
    {text : List UInt8} {tree : Tree}
    (h : RelaxedScalar text tree) :
    tree.Ordered ∧ tree.RawValid := by
  cases h with
  | literal l =>
      exact strictScalar_fits (strictScalar_literal l)
  | number _ =>
      exact ⟨.number _, .number _⟩
  | string content =>
      exact ⟨.string _, .string (isContent_toText content)⟩
  | word isWord _ =>
      exact ⟨.string _, .string (isContent_toText (isContent_of_isWord isWord))⟩

/-- What is read has its members in order and contents that can stand in a string. -/
theorem fits_of_readTree
    {g : Grammar} {options : ParserOptions} {input : List UInt8} {tree : Tree}
    (accepted : Document.readTree g options input = .ok tree) :
    tree.Ordered ∧ tree.RawValid := by
  cases g with
  | strict =>
      obtain ⟨_, value, _⟩ := document_of_readTree sound_strict accepted
      constructor
      · exact ordered_of_value (fun _ _ scalar => (strictScalar_fits scalar).1) value
      · refine allContent_of_value ?_ (fun _ _ scalar => (strictScalar_fits scalar).2) value
        intro text content isKey
        cases isKey with
        | string isContent =>
            exact isContent_toText isContent
  | relaxed =>
      obtain ⟨_, value, _⟩ := document_of_readTree sound_relaxed accepted
      constructor
      · exact ordered_of_value (fun _ _ scalar => (relaxedScalar_fits scalar).1) value
      · refine allContent_of_value ?_ (fun _ _ scalar => (relaxedScalar_fits scalar).2) value
        intro text content isKey
        cases isKey with
        | string isContent =>
            exact isContent_toText isContent
        | word isWord =>
            exact isContent_toText (isContent_of_isWord isWord)

/-- A number alone is a document. -/
theorem readTree_of_number
    {text : List UInt8}
    (number : IsNumber text) :
    Document.readTree .strict ⟨none⟩ text = .ok (.number (numberValue text)) :=
  readTree_of_document (document_of_value (.scalar (.number number)))

/-- The text 1e400 is a number. -/
theorem isNumber_huge :
    IsNumber [0x31, 0x65, 0x34, 0x30, 0x30] := by
  have digits : Digits [0x34, 0x30, 0x30] := ⟨by simp, by simp [Byte.isDigit]⟩
  have integer : IsInteger [0x31] := .positive (by decide) (by simp)
  have exponent : IsExponent (0x65 :: [0x34, 0x30, 0x30]) := .unsigned (by decide) digits
  exact .positive (.mk integer .none exponent)

end Syntax

namespace Tree

/-! ## Equality with the normal tree -/

theorem approxEq_normalNumber
    (n : Binary64) :
    (normalNumber n).approxEq (.number n) = true ↔ n.isFinite = true := by
  have same {m : Binary64} (eq : m.numEq n = true) : m.approxEq n = true := by
    rw [Binary64.approxEq, eq, Bool.true_or]
  have notNaN (finite : n.isFinite = true) : n.isNaN = false := by
    simp only [Binary64.isFinite, Binary64.isNaN, decide_eq_true_eq, decide_eq_false_iff_not] at *
    omega
  unfold normalNumber
  by_cases zero : n.isZero
  · have finite : n.isFinite = true := by
      simp only [Binary64.isZero, beq_iff_eq] at zero
      simp only [Binary64.isFinite, zero]
      decide
    have rank : n.rank = 0 := by
      simp only [Binary64.isZero, beq_iff_eq] at zero
      simp [Binary64.rank, zero]
    have eq : Binary64.zero.numEq n = true := by
      rw [Binary64.numEq, notNaN finite, rank]
      decide
    simp [zero, finite, approxEq, same eq]
  · by_cases finite : n.isFinite = true
    · simp [zero, finite, approxEq, same (Binary64.numEq_self (notNaN finite))]
    · simp [zero, finite, approxEq]

theorem approxEqItems_map
    (f : Tree → Tree)
    (items : List Tree) :
    approxEqItems (items.map f) items = true ↔ ∀ item ∈ items, (f item).approxEq item = true := by
  induction items with
  | nil =>
      simp [approxEqItems]
  | cons item items ih =>
      rw [List.map_cons, approxEqItems, Bool.and_eq_true, ih, List.forall_mem_cons]

theorem approxEqMembers_map
    (f : Tree → Tree)
    (members : List (String × Tree)) :
    approxEqMembers (members.map fun member => (member.1, f member.2)) members = true ↔
      ∀ member ∈ members, (f member.2).approxEq member.2 = true := by
  induction members with
  | nil =>
      simp [approxEqMembers]
  | cons member members ih =>
      rw [List.map_cons, approxEqMembers, Bool.and_eq_true, Bool.and_eq_true, ih,
        List.forall_mem_cons, beq_self_eq_true]
      simp only [true_and]

/-- A tree equals its normal tree exactly if all its numbers are finite. -/
theorem approxEq_normal
    {tree : Tree}
    (ordered : tree.Ordered) :
    tree.normal.approxEq tree = true ↔ tree.AllNumbers (·.isFinite) := by
  induction ordered with
  | null =>
      exact iff_of_true rfl .null
  | boolean value =>
      exact iff_of_true (by simp [normal, approxEq]) (.boolean value)
  | string content =>
      exact iff_of_true (by simp [normal, approxEq]) (.string content)
  | number n =>
      rw [allNumbers_number]
      exact approxEq_normalNumber n
  | array _ ih =>
      rw [normal, normalItems_eq, approxEq, approxEqItems_map, allNumbers_array]
      exact forall₂_congr ih
  | object _ _ ih =>
      rw [normal, normalMembers_eq, approxEq, approxEqMembers_map, allNumbers_object]
      exact forall₂_congr ih

/-- The canonical text of a tree that was read, in either dialect and under any limit, is read
again, as the normal tree. The two are equal exactly if all numbers of the first are finite. -/
theorem readTree_write_readTree
    (g : Grammar)
    (options : ParserOptions)
    (input : List UInt8)
    (tree : Tree)
    (writer : WriterOptions)
    (accepted : Document.readTree g options input = .ok tree) :
    Document.readTree .strict ⟨none⟩ (Utf8.ofText (tree.write writer)) = .ok tree.normal ∧
      (tree.normal.approxEq tree = true ↔ tree.AllNumbers (·.isFinite)) := by
  obtain ⟨ordered, valid⟩ := Syntax.fits_of_readTree accepted
  exact ⟨Syntax.readTree_of_document (document_write ordered valid writer),
    approxEq_normal ordered⟩

/-- A negative zero is read again as zero, which equals it. -/
theorem readTree_write_negative_zero :
    Document.readTree .strict ⟨none⟩ (Utf8.ofText ((Tree.number Binary64.zero.neg).write ⟨2⟩)) =
        .ok (.number Binary64.zero) ∧
      (Tree.number Binary64.zero).approxEq (.number Binary64.zero.neg) = true := by
  have value : Syntax.numberValue [0x2D, 0x30] = Binary64.zero.neg := by decide +kernel
  have number : Syntax.IsNumber [0x2D, 0x30] := .negative (.mk .zero .none .none)
  have accepted := Syntax.readTree_of_number number
  rw [value] at accepted
  obtain ⟨read, equal⟩ := readTree_write_readTree _ _ _ _ ⟨2⟩ accepted
  exact ⟨read, equal.mpr (.number (by decide))⟩

/-- A number beyond the doubles is not preserved: it is written as null. -/
theorem huge_number_not_preserved :
    ¬ ∀ (g : Grammar) (options : ParserOptions) (input : List UInt8) (tree : Tree)
        (writer : WriterOptions), Document.readTree g options input = .ok tree →
      ∃ again, Document.readTree .strict ⟨none⟩ (Utf8.ofText (tree.write writer)) = .ok again ∧
        again.approxEq tree = true := by
  intro preserved
  have infinite : (Syntax.numberValue [0x31, 0x65, 0x34, 0x30, 0x30]).isFinite = false := by
    decide +kernel
  have accepted := Syntax.readTree_of_number Syntax.isNumber_huge
  generalize Syntax.numberValue [0x31, 0x65, 0x34, 0x30, 0x30] = n at infinite accepted
  obtain ⟨again, read, equal⟩ := preserved _ _ _ _ ⟨2⟩ accepted
  have null := Syntax.readTree_of_document (document_write (.number n) (.number n) ⟨2⟩)
  cases null.symm.trans read
  have finite := (approxEq_normalNumber n).mp equal
  rw [infinite] at finite
  cases finite

end Tree
end JsonDoc
