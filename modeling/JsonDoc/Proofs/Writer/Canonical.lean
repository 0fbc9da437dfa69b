import JsonDoc.Proofs.Writer.Derivation
import JsonDoc.Proofs.Writer.NumberToken
import JsonDoc.Writer.Canonical

/-!
# Canonical text reads back

The canonical text of a tree is read as that tree up to what JSON cannot say: the sign of zero, and
numbers that are not finite. The contents must be such that they can stand in a string at all.
-/

namespace JsonDoc

namespace Writer

open Syntax Utf8

/-- A canonical number is a strict token for what it is as text. -/
theorem canonicalNumber_reads
    (n : Binary64) :
    StrictScalar (ofText (canonicalNumber n)) (Tree.normalNumber n) :=
  integerOr_reads (Decimal.placeValue_pos 15) (Or.inl rfl) ⟨rfl, rfl, rfl⟩ n

theorem canonical_reads :
    canonical.Reads Tree.normalNumber fun content => IsContent (ofText content) :=
  ⟨canonicalNumber_reads, fun _ valid => valid⟩

end Writer

namespace Tree

/-- The content of every string and of every key can stand between the quotes of a string. -/
def RawValid (tree : Tree) : Prop :=
  tree.AllContent fun content => Syntax.IsContent (Utf8.ofText content)

/-- Canonical text is a document of standard JSON for the normal tree. -/
theorem document_write
    {tree : Tree}
    (ordered : tree.Ordered)
    (valid : tree.RawValid)
    (options : WriterOptions) :
    Syntax.Lexicon.strict.Document (Utf8.ofText (tree.write options)) tree.normal := by
  have value := Writer.node_value Writer.canonical_reads options.indent valid 0
  have normal : tree.reread normalNumber Writer.canonical.content = tree.normal :=
    reread_normal ordered
  rw [normal] at value
  exact Syntax.document_of_value value

/-- Reading canonical text gives the normal tree, whatever the indentation was. -/
theorem readTree_write
    {tree : Tree}
    (ordered : tree.Ordered)
    (valid : tree.RawValid)
    (options : WriterOptions) :
    Document.readTree .strict ⟨none⟩ (Utf8.ofText (tree.write options)) = .ok tree.normal :=
  Syntax.readTree_of_document (document_write ordered valid options)

/-- A zero loses its sign and an infinity becomes null, in the canonical text of an object. -/
theorem readTree_write_zero_infinity :
    Document.readTree .strict ⟨none⟩ (Utf8.ofText ((Tree.object
      [("k", .array [.number Binary64.zero.neg, .number (Binary64.infinity false)])]).write ⟨2⟩)) =
        .ok (.object [("k", .array [.number Binary64.zero, .null])]) := by
  have ordered : (Tree.object
      [("k", .array [.number Binary64.zero.neg, .number (Binary64.infinity false)])]).Ordered := by
    refine .object (List.pairwise_singleton _ _) ?_
    intro member mem
    rw [List.mem_singleton.mp mem]
    refine .array ?_
    intro item mem
    simp only [List.mem_cons, List.not_mem_nil, or_false] at mem
    rcases mem with rfl | rfl <;> exact .number _
  have valid : (Tree.object
      [("k", .array [.number Binary64.zero.neg, .number (Binary64.infinity false)])]).RawValid := by
    have key : Utf8.ofText "k" = [0x6B] := by decide
    refine .object ?_ ?_
    · intro member mem
      rw [List.mem_singleton.mp mem, key]
      exact .plain (by decide) (by decide) (by decide) .nil
    · intro member mem
      rw [List.mem_singleton.mp mem]
      refine .array ?_
      intro item mem
      simp only [List.mem_cons, List.not_mem_nil, or_false] at mem
      rcases mem with rfl | rfl <;> exact .number _
  exact readTree_write ordered valid ⟨2⟩

end Tree
end JsonDoc
