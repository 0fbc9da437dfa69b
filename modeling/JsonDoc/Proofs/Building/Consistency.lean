import JsonDoc.Proofs.Syntax.Relaxed

/-!
# The grammars and the builder agree

The events of every value that a grammar reads stand for a tree, so the builder never refuses them.
What fails is the grammar itself, or, where exactly one value is asked for, something follows it.
-/

namespace JsonDoc
namespace Document

open Syntax Events

variable {g : Grammar} {options : ParserOptions} {input : List UInt8}

/-- The events of a value are built into a tree. -/
theorem build_of_read
    (ok : (g.read options.maxDepth input).error = none) :
    ∃ tree, Builder.build (g.read options.maxDepth input).events = .ok tree := by
  obtain ⟨_, spelling, _, _, _, _, denotes, _⟩ := read_sound g.sound_lexicon ok
  exact ⟨spelling.tree, Builder.build_of_denotes denotes⟩

/-- A value that the grammar reads is a tree, with the offset at which reading stopped. -/
theorem readFront_of_read
    (ok : (g.read options.maxDepth input).error = none) :
    ∃ tree, readFront g options input =
      .ok (tree, (g.read options.maxDepth input).stop.position) := by
  obtain ⟨tree, build⟩ := build_of_read ok
  refine ⟨tree, ?_⟩
  simp only [readFront, ok, build]

theorem readFront_of_error
    {e : ParseError}
    (failed : (g.read options.maxDepth input).error = some e) :
    readFront g options input = .error (.parse e) := by
  simp only [readFront, failed]

/-- Reading from the front fails only where the grammar does. -/
theorem readFront_error_iff
    (fault : Fault) :
    readFront g options input = .error fault ↔
      ∃ e, (g.read options.maxDepth input).error = some e ∧ fault = .parse e := by
  cases error : (g.read options.maxDepth input).error with
  | some e =>
      rw [readFront_of_error error]
      constructor
      · intro same
        cases same
        exact ⟨e, rfl, rfl⟩
      · rintro ⟨_, ⟨⟩, rfl⟩
        rfl
  | none =>
      obtain ⟨tree, front⟩ := readFront_of_read error
      simp [front]

/-- Exactly one value is not built only where something follows the first one. -/
theorem readTree_build_iff
    (e : BuildError) :
    readTree g options input = .error (.build e) ↔
      (g.read options.maxDepth input).error = none ∧
        (g.read options.maxDepth input).stop.position < input.length ∧
        e = .trailingData ⟨(g.read options.maxDepth input).stop.position, input.length⟩ := by
  cases error : (g.read options.maxDepth input).error with
  | some e =>
      simp [readTree, readFront_of_error error]
  | none =>
      obtain ⟨tree, front⟩ := readFront_of_read error
      by_cases more : (g.read options.maxDepth input).stop.position < input.length
      · simp [readTree, front, more, eq_comm]
      · simp [readTree, front, more]

/-- The builder never refuses what a grammar reads. Reading from the front fails only with the
error of the grammar. Reading exactly one value fails in the builder exactly if the grammar stops
before the end of the input, with the rest as trailing data. -/
theorem fault_iff
    (g : Grammar)
    (options : ParserOptions)
    (input : List UInt8) :
    (∀ fault, readFront g options input = .error fault ↔
        ∃ e, (g.read options.maxDepth input).error = some e ∧ fault = .parse e) ∧
      ∀ e, readTree g options input = .error (.build e) ↔
        (g.read options.maxDepth input).error = none ∧
          (g.read options.maxDepth input).stop.position < input.length ∧
          e = .trailingData ⟨(g.read options.maxDepth input).stop.position, input.length⟩ :=
  ⟨readFront_error_iff, readTree_build_iff⟩

end Document
end JsonDoc
