import JsonDoc.Proofs.Building.Verbatim
import JsonDoc.Proofs.Number.Values
import JsonDoc.Proofs.Writer.RoundTrip

/-!
# Trees that were read are well formed

What is read from any bytes is a tree that the writer and the checks can rely on,
`wellFormed_of_readTree`. The bytes need not be a text: where they are not, they are mended after
the grammar has looked at them, and what was a string token stays one.
-/

namespace JsonDoc

namespace Tree

/-- What the writer and the checks rely on in a tree. -/
structure WellFormed (limit : Option Nat) (tree : Tree) : Prop where
  /-- The content of every string and of every key can stand between quotes: its quotes are escaped,
  each backslash starts an escape, and four hexadecimal digits follow each `\u`. -/
  contents : tree.RawValid
  /-- No number is a NaN. -/
  numbers : tree.AllNumbers fun n => n.isNaN = false
  /-- The keys of each object are in order, each of them once. -/
  ordered : tree.Ordered
  /-- Containers are nested within the limit. -/
  nesting : ∀ most, limit = some most → tree.containerDepth ≤ most

end Tree

namespace Grammar

open Run Event

/-- The events of a run that has not failed keep to its limit. -/
theorem within_read
    {g : Grammar} {limit : Nat} {input : List UInt8}
    (ok : (g.read (some limit) input).error = none) :
    Within limit 0 (g.read (some limit) input).events := by
  cases cut_read g limit input with
  | uncut same within _ =>
      rw [same]
      exact within
  | cut before event after _ _ _ _ _ error =>
      rw [ok] at error
      cases error

end Grammar

namespace Document

open Utf8 Syntax

variable {g : Grammar} {options : ParserOptions} {input : List UInt8} {tree : Tree}

theorem containerDepth_of_readTree
    (accepted : readTree g options input = .ok tree)
    {limit : Nat}
    (limited : options.maxDepth = some limit) :
    tree.containerDepth ≤ limit := by
  have denotes := denotes_of_readTree accepted
  have ok := (read_of_readTree accepted).1
  rw [limited] at denotes ok
  have most := denotes.containerDepth_le (Grammar.within_read ok)
  omega

/-- Every tree that is read is well formed, whatever the bytes, the dialect and the limit are. -/
theorem wellFormed_of_readTree
    (accepted : readTree g options input = .ok tree) :
    tree.WellFormed options.maxDepth where
  contents := (fits_of_readTree accepted).2
  numbers := (denotes_of_readTree accepted).allNumbers NumberText.isNaN_value?
  ordered := (fits_of_readTree accepted).1
  nesting := fun _ limited => containerDepth_of_readTree accepted limited

/-- A byte that is no text after a backslash, under a bare key and within two levels. -/
theorem wellFormed_of_readTree_backslash :
    readTree .relaxed ⟨some 2⟩ [0x5B, 0x7B, 0x6B, 0x3A, 0x22, 0x5C, 0xFF, 0x22, 0x7D, 0x5D] =
        .ok (.array [.object [("k", .string "\\\uFFFD")]]) ∧
      (Tree.array [.object [("k", .string "\\\uFFFD")]]).WellFormed (some 2) := by
  have accepted : readTree .relaxed ⟨some 2⟩
      [0x5B, 0x7B, 0x6B, 0x3A, 0x22, 0x5C, 0xFF, 0x22, 0x7D, 0x5D] =
        .ok (.array [.object [("k", .string "\\\uFFFD")]]) := by rfl
  exact ⟨accepted, wellFormed_of_readTree accepted⟩

end Document
end JsonDoc
