import JsonDoc.Proofs.Syntax.RelaxedComplete
import JsonDoc.Proofs.Syntax.Recognition

/-!
# Recognition of relaxed documents

Reading a whole input in the relaxed dialect succeeds exactly on the documents that its lexicon
derives, with one exception, and gives the tree of the derivation (`readTree_relaxed_iff`).

The exception is an input that ends in a bare word at the root which begins a literal and is not
all of it. `tru` is derived as a string, but more bytes could make it `true`, so it is an overrun.
-/

namespace JsonDoc
namespace Syntax

open Run Grammar

variable {s : Scanner} {text after input : List UInt8} {tree : Tree} {l : Literal}

/-- The input ends in a word at the root that begins a literal and is not all of it. -/
inductive CutShort (l : Literal) : List UInt8 → Prop
  | mk {before word : List UInt8} :
      Trivia before → word ≠ [] → word <+: l.word → word ≠ l.word → CutShort l (before ++ word)

/-! ## Words that are cut short -/

/-- What begins a literal is a word, and its first byte tells the literal. -/
theorem isWord_of_prefix
    (nonempty : text ≠ [])
    (begins : text <+: l.word) :
    IsWord text ∧ ∃ first more, text = first :: more ∧ Leading.ofByte first = .literal l := by
  obtain ⟨first, more, rfl⟩ := List.exists_cons_of_ne_nil nonempty
  obtain ⟨rest, whole⟩ := begins
  have isWord := isWord_literal l
  obtain ⟨b, others, word, leads⟩ := ofByte_literal l
  rw [← whole, List.cons_append] at isWord word
  obtain ⟨rfl, -⟩ := List.cons.inj word
  cases isWord with
  | mk start all =>
      exact ⟨.mk start fun c mem => all c (List.mem_append_left _ mem), _, _, rfl, leads⟩

/-- At the end of the input such a word is not yet read as a string. -/
theorem valueOf_cutShort
    (value : Rule)
    (ahead : s.rest = text)
    (nonempty : text ≠ [])
    (begins : text <+: l.word)
    (short : text ≠ l.word) :
    valueOf .relaxed value s =
      fail (s.advance text.length) (.overrun s.length (.literal l)) := by
  obtain ⟨isWord, first, more, startsWith, leads⟩ := isWord_of_prefix nonempty begins
  have ahead : s.rest = text ++ [] := by rw [ahead, List.append_nil]
  have peek : s.peek = some first := Scanner.peek_of_rest (startsWith ▸ ahead)
  have passes := Scanner.Passes.advance s text.length
  rw [ahead, List.take_left] at passes
  have atEnd : (s.advance text.length).atEnd := by
    simp [Scanner.atEnd, Scanner.rest_advance ahead]
  have cut : (s.advance text.length).atEnd && text.isPrefixOf l.word := by
    rw [atEnd, Bool.true_and, List.isPrefixOf_iff_prefix]
    exact begins
  have delimited : Delimited [] := by simp [Delimited]
  simp only [valueOf, peek, leads, literal, skipWhile_word ahead isWord delimited,
    passes.textTo_eq, if_neg short, if_pos cut, Scanner.length_advance]

theorem readTree_cutShort
    (options : ParserOptions)
    (cut : CutShort l input) :
    Document.readTree .relaxed options input =
      .error (.parse (.overrun input.length (.literal l))) := by
  cases cut with
  | @mk before word trivia nonempty begins short =>
      obtain ⟨isWord, _⟩ := isWord_of_prefix nonempty begins
      obtain ⟨first, more, startsWith, blank, hash, _⟩ := starts_word isWord
      have start : (Scanner.start (before ++ word) options.maxDepth).rest =
          before ++ first :: more := by
        rw [Scanner.start, startsWith]
      obtain ⟨skipped, ahead⟩ := complete_relaxed.skip_eq trivia start blank hash
      rw [← startsWith] at ahead
      have fails := valueOf_cutShort (Grammar.value .relaxed) ahead nonempty begins short
      have length : (relaxed.skip (Scanner.start (before ++ word) options.maxDepth)).length =
          (before ++ word).length := by
        rw [skipped, Scanner.length_advance]
        simp [Scanner.length, Scanner.start]
      rw [← value_eq, length] at fails
      simp [Document.readTree, Document.readFront, Grammar.read, fails, andThen, fail]

/-! ## Documents -/

theorem follows_of_ending
    (h : Ending text) :
    Follows text := by
  cases h with
  | closed trivia =>
      exact follows_of_trivia trivia
  | comment trivia _ =>
      refine follows_append (follows_of_trivia trivia) ?_
      intro b hb
      cases hb
      decide

/-- The end of a document ends its value, unless that is cut short. -/
theorem relaxedApart_of_ending
    {before : List UInt8}
    (isBefore : Trivia before)
    (value : Lexicon.relaxed.Value text tree)
    (isAfter : Ending after)
    (settled : ∀ l, ¬ CutShort l (before ++ (text ++ after))) :
    RelaxedApart text after := by
  refine ⟨follows_of_ending isAfter, ?_⟩
  rintro rfl l begins
  obtain ⟨b, more, rfl, _⟩ := value_starts complete_relaxed value
  refine Decidable.byContradiction fun short => settled l ?_
  rw [List.append_nil]
  exact .mk isBefore (List.cons_ne_nil _ _) begins short

/-- Reading a whole input in the relaxed dialect without a limit of depth is deriving it, except
that a root word which is cut short by the end of the input is an overrun. -/
theorem readTree_relaxed_iff
    (input : List UInt8) :
    (∀ tree, Document.readTree .relaxed ⟨none⟩ input = .ok tree ↔
        Lexicon.relaxed.Document input tree ∧ ∀ l, ¬ CutShort l input) ∧
      ∀ l, CutShort l input → Document.readTree .relaxed ⟨none⟩ input =
        .error (.parse (.overrun input.length (.literal l))) := by
  refine ⟨fun tree => ⟨?_, ?_⟩, fun l => readTree_cutShort ⟨none⟩⟩
  · intro read
    refine ⟨document_of_readTree sound_relaxed read, ?_⟩
    intro l cut
    rw [readTree_cutShort ⟨none⟩ cut] at read
    cases read
  · rintro ⟨document, settled⟩
    cases document with
    | mk isBefore value isAfter =>
        exact readTree_complete complete_relaxed isBefore value isAfter
          (relaxedApart_of_ending isBefore value isAfter settled)

end Syntax
end JsonDoc
