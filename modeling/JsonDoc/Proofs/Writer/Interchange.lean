import JsonDoc.Proofs.Tree.Datum
import JsonDoc.Proofs.Tree.Serialization
import JsonDoc.Proofs.Writer.Derivation
import JsonDoc.Proofs.Writer.RoundTrip
import JsonDoc.Writer.Interchange

/-!
# Text for interchange means the tree

What is known of a printer of JSON is `PrintsJson`: its texts are JSON, and they spell the data that
it was told. Whatever else it decides, what is read from the text for other programs is another tree
with the same meaning, `readTree_toJson`: strings and keys that are decoded are the same in both,
whatever escapes the tree itself has. The printer of the running program is such a printer,
`printsJson_print`.
-/

namespace JsonDoc

open Syntax Utf8

/-- The printer writes standard JSON for all data that can be written. Characters that cannot stand
in a string are escaped, others may be, and numbers are read back as the same values. -/
def PrintsJson (print : Datum → String) : Prop :=
  ∀ datum : Datum, datum.Writable →
    ∃ tree, Lexicon.strict.Document (ofText (print datum)) tree ∧ datum.Spelled tree

namespace Json

/-! ## The printer of the running program -/

theorem items_eq
    (level : Nat)
    (data : List Datum) :
    items level data = data.map (node level) := by
  induction data with
  | nil =>
      rfl
  | cons datum data ih =>
      rw [items, ih, List.map_cons]

theorem fields_eq
    (level : Nat)
    (data : List (String × Datum)) :
    fields level data = data.map fun field =>
      "\"" ++ Escape.encodeText field.1 ++ "\"" ++ Writer.afterKey 2 ++ node level field.2 := by
  induction data with
  | nil =>
      rfl
  | cons field data ih =>
      obtain ⟨key, value⟩ := field
      rw [fields, ih, List.map_cons, quoted]

/-- What is printed is derived by standard JSON, with the tree of the data. -/
theorem node_value
    {datum : Datum}
    (writable : datum.Writable) :
    ∀ level, Lexicon.strict.Value (ofText (node level datum)) (Tree.ofDatum datum) := by
  induction writable with
  | null =>
      exact fun level => .scalar Writer.scalar_null
  | boolean value =>
      cases value with
      | true =>
          exact fun level => .scalar Writer.scalar_true
      | false =>
          exact fun level => .scalar Writer.scalar_false
  | @integer n _ _ =>
      exact fun level => .scalar (Writer.scalar_number (Writer.exists_spells_integer n))
  | double finite =>
      exact fun level => .scalar
        (Writer.scalar_number (Writer.exists_spells_write (Or.inr rfl) finite))
  | text value =>
      exact fun level => .scalar (Writer.scalar_string (Escape.isContent_encodeText value))
  | list _ ih =>
      intro level
      rw [node, items_eq, Tree.ofDatum, Tree.ofDatumItems_eq]
      exact Writer.value_enclose_array 2 level fun item mem => ih item mem (level + 1)
  | record _ ih =>
      intro level
      rw [node, fields_eq, Tree.ofDatum, Tree.ofDatumFields_eq, Tree.ofMembers]
      exact Writer.value_enclose_object 2 level
        (fun field _ => Escape.isContent_encodeText field.1)
        (fun field mem => ih field mem (level + 1))

theorem printsJson_print :
    PrintsJson print := by
  intro datum writable
  exact ⟨_, document_of_value (node_value writable 0), Tree.spelled_ofDatum writable⟩

end Json

namespace Tree

/-- The text for other programs describes the same document as the tree itself, whichever printer
writes it. It is read as a tree that means the same at every place: with all strings and keys
decoded, the two trees are the same but for the signs of zeros, and so they are equal. -/
theorem readTree_toJson
    {print : Datum → String}
    (printer : PrintsJson print)
    {tree : Tree}
    (finite : tree.AllNumbers (·.isFinite))
    (apart : tree.KeysApart) :
    ∃ again, Document.readTree .strict ⟨none⟩ (Utf8.ofText (tree.toJson print)) = .ok again ∧
      again.decoded = tree.decoded.normal ∧ again.decoded.approxEq tree.decoded = true := by
  obtain ⟨again, document, spelled⟩ := printer tree.serialize (writable_serialize finite)
  have same := decoded_of_spelled apart finite spelled
  refine ⟨again, readTree_of_document document, same, ?_⟩
  rw [same]
  exact (approxEq_normal apart.ordered_decoded).mpr finite.decoded

/-- A lone half of a pair, an unknown escape and a negative zero, under a key with an escape. -/
theorem readTree_toJson_escapes :
    PrintsJson Json.print ∧
      ∃ again, Document.readTree .strict ⟨none⟩ (Utf8.ofText (Tree.object
          [("a\\/b", .array [.number Binary64.zero.neg, .string "\\ud800\\q"])]).toJson) =
            .ok again ∧
        again.decoded =
          .object [("a/b", .array [.number Binary64.zero, .string "\uFFFD\\q"])] := by
  have finite : (Tree.object [("a\\/b",
      .array [.number Binary64.zero.neg, .string "\\ud800\\q"])]).AllNumbers (·.isFinite) := by
    refine .object (List.forall_mem_singleton.mpr (.array ?_))
    exact List.forall_mem_cons.mpr
      ⟨.number (by decide), List.forall_mem_singleton.mpr (.string _)⟩
  have apart : (Tree.object [("a\\/b",
      .array [.number Binary64.zero.neg, .string "\\ud800\\q"])]).KeysApart := by
    refine .object (List.nodup_singleton _) (List.forall_mem_singleton.mpr (.array ?_))
    exact List.forall_mem_cons.mpr ⟨.number _, List.forall_mem_singleton.mpr (.string _)⟩
  have key : Escape.decodeText "a\\/b" = "a/b" := by decide +kernel
  have text : Escape.decodeText "\\ud800\\q" = "\uFFFD\\q" := by decide +kernel
  obtain ⟨again, read, same, _⟩ := readTree_toJson Json.printsJson_print finite apart
  refine ⟨Json.printsJson_print, again, read, same.trans ?_⟩
  simp only [decoded, reread, rereadMembers, rereadItems, key, text]
  rfl

end Tree
end JsonDoc
