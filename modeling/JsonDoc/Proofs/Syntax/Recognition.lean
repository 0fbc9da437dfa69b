import JsonDoc.Document
import JsonDoc.Proofs.Syntax.Completeness

/-!
# Recognition of documents

Reading a whole input succeeds exactly on the documents that the lexicon of a dialect derives, and
gives the tree of the derivation, `readTree_iff`.
-/

namespace JsonDoc
namespace Syntax

open Run Grammar Events

variable {g : Grammar} {lex : Lexicon} {apart : List UInt8 → List UInt8 → Prop}
  {input : List UInt8} {tree : Tree}

theorem passes_start
    {maxDepth : Option Nat} {text : List UInt8} {t : Scanner}
    (passes : (Scanner.start input maxDepth).Passes text t) :
    input = text ++ t.rest :=
  passes.rest

/-- What is read from the front of an input. -/
theorem read_sound
    (sound : Sound g lex)
    {maxDepth : Option Nat}
    (ok : (g.read maxDepth input).error = none) :
    ∃ (before : List UInt8) (spelling : Spelling) (after : List UInt8),
      lex.trivia before ∧ lex.Value spelling.text spelling.tree ∧
      lex.ending after ∧ Denotes (g.read maxDepth input).events spelling.tree ∧
      (Scanner.start input maxDepth).Passes (before ++ (spelling.text ++ after))
        (g.read maxDepth input).stop := by
  obtain ⟨okValue, _⟩ := error_andThen_eq_none.mp ok
  obtain ⟨spelling, found⟩ := value_sound sound okValue
  obtain ⟨before, isBefore, passesBefore⟩ := sound.trivia found.ahead
  obtain ⟨after, isAfter, passesAfter⟩ :=
    sound.last (g.value (g.skip (Scanner.start input maxDepth))).stop
  refine ⟨before, spelling, after, isBefore, found.value, isAfter, ?_, ?_⟩
  · rw [Grammar.read, events_andThen okValue]
    simpa [done] using found.denotes
  · rw [Grammar.read, stop_andThen okValue]
    exact passesBefore.trans (found.passes.trans passesAfter)

/-- A document is read to its end. -/
theorem read_complete
    (complete : Complete g lex apart)
    {before text after : List UInt8}
    (isBefore : lex.trivia before)
    (value : lex.Value text tree)
    (isAfter : lex.ending after)
    (ends : apart text after) :
    ∃ events, Denotes events tree ∧ g.read none (before ++ (text ++ after)) =
      ⟨events, (Scanner.start (before ++ (text ++ after)) none).advance
        (before ++ (text ++ after)).length, none⟩ := by
  obtain ⟨b, more, startsWith, blank, hash, _⟩ := value_starts complete value
  have ahead : (Scanner.start (before ++ (text ++ after)) none).rest =
      before ++ b :: (more ++ after) := by
    rw [Scanner.start, startsWith, List.cons_append]
  obtain ⟨skipped, valueAhead⟩ := complete.skip_eq isBefore ahead blank hash
  rw [← List.cons_append, ← startsWith] at valueAhead
  obtain ⟨events, read, denotes⟩ := value_complete complete value _ after valueAhead
    (by rw [skipped]; rfl) ends
  refine ⟨events, denotes, ?_⟩
  have afterAhead : ((g.skip (Scanner.start (before ++ (text ++ after)) none)).advance
      text.length).rest = after := Scanner.rest_advance valueAhead
  have last : g.skip ((g.skip (Scanner.start (before ++ (text ++ after)) none)).advance
      text.length) = (Scanner.start (before ++ (text ++ after)) none).advance
        (before ++ (text ++ after)).length := by
    rw [Grammar.skip, afterAhead, complete.ending after isAfter, skipped,
      Scanner.advance_advance, Scanner.advance_advance]
    simp
  simp [Grammar.read, andThen, read, done, last]

/-- A whole input is read as a tree. -/
theorem readTree_of_read
    {options : ParserOptions} {events : List Event} {stop : Scanner}
    (read : g.read options.maxDepth input = ⟨events, stop, none⟩)
    (denotes : Denotes events tree)
    (all : input.length ≤ stop.position) :
    Document.readTree g options input = .ok tree := by
  have build := Builder.build_of_denotes denotes
  simp [Document.readTree, Document.readFront, read, build, Nat.not_lt.mpr all]

/-- A derived document is read, if what follows its value ends it. -/
theorem readTree_complete
    (complete : Complete g lex apart)
    {before text after : List UInt8}
    (isBefore : lex.trivia before)
    (value : lex.Value text tree)
    (isAfter : lex.ending after)
    (ends : apart text after) :
    Document.readTree g ⟨none⟩ (before ++ (text ++ after)) = .ok tree := by
  obtain ⟨events, denotes, read⟩ := read_complete complete isBefore value isAfter ends
  refine readTree_of_read read denotes ?_
  simp [Scanner.advance, Scanner.start]

/-- An input that is read as one tree is read to its end, and the tree is built from its events. -/
theorem read_of_readTree
    {options : ParserOptions}
    (h : Document.readTree g options input = .ok tree) :
    (g.read options.maxDepth input).error = none ∧
      Builder.build (g.read options.maxDepth input).events = .ok tree ∧
      (g.read options.maxDepth input).stop.position = input.length ∧
      (g.read options.maxDepth input).stop.rest = [] := by
  have length := (orderly_read g options.maxDepth input).length_stop
  simp only [Scanner.length, Scanner.start] at length
  unfold Document.readTree Document.readFront at h
  simp only at h
  cases error : (g.read options.maxDepth input).error with
  | some e =>
      simp [error] at h
  | none =>
      cases build : Builder.build (g.read options.maxDepth input).events with
      | error e =>
          simp [error, build] at h
      | ok built =>
          simp only [error, build] at h
          split at h
          · simp at h
          · cases h
            exact ⟨rfl, rfl, by omega, List.eq_nil_of_length_eq_zero (by omega)⟩

/-- The documents that are read are those that are derived. -/
theorem document_of_readTree
    (sound : Sound g lex)
    {options : ParserOptions}
    (h : Document.readTree g options input = .ok tree) :
    lex.Document input tree := by
  obtain ⟨ok, build, _, nothing⟩ := read_of_readTree h
  obtain ⟨before, spelling, after, isBefore, value, isAfter, denotes, passes⟩ :=
    read_sound sound ok
  rw [Builder.build_of_denotes denotes] at build
  cases build
  have split := passes_start passes
  rw [nothing, List.append_nil] at split
  rw [split]
  exact .mk isBefore value isAfter

/-- Reading a whole input without a limit of depth is deriving it. -/
theorem readTree_iff
    (sound : Sound g lex)
    (complete : Complete g lex apart)
    (ends : ∀ text tree after, lex.Value text tree → lex.ending after → apart text after) :
    Document.readTree g ⟨none⟩ input = .ok tree ↔ lex.Document input tree := by
  constructor
  · exact document_of_readTree sound
  · intro h
    cases h with
    | mk isBefore value isAfter =>
        exact readTree_complete complete isBefore value isAfter (ends _ _ _ value isAfter)

end Syntax
end JsonDoc
