import JsonDoc.Proofs.Syntax.RelaxedNumber

/-!
# What the relaxed dialect derives is read

The relaxed rules read every token that the relaxed lexicon derives, where what follows ends it:
`complete_relaxed`. A word at the end of the input is read as a string only if no literal begins
with it, since more bytes could make it that literal.
-/

namespace JsonDoc
namespace Syntax

open Run Grammar

variable {s : Scanner} {text rest : List UInt8}

/-! ## Words -/

theorem IsWord.isWordPart
    (h : IsWord text) :
    ∀ b ∈ text, Byte.isWordPart b := by
  cases h with
  | mk start all =>
      intro b mem
      rcases List.mem_cons.mp mem with rfl | mem
      · exact isWordPart_of_isWordStart start
      · exact all b mem

theorem isWord_literal
    (l : Literal) :
    IsWord l.word := by
  cases l <;> exact .mk (by decide) (List.all_eq_true.mp (by decide))

/-- A byte that starts a word is of no class without such bytes. -/
theorem ne_of_isWordStart
    {b c : UInt8}
    (h : Byte.isWordStart b)
    (k : Byte.isWordStart c = false) :
    b ≠ c := by
  rintro rfl
  simp [h] at k

theorem isDigit_of_isWordStart
    {b : UInt8}
    (h : Byte.isWordStart b) :
    Byte.isDigit b = false := by
  cases digit : Byte.isDigit b with
  | false =>
      rfl
  | true =>
      simp only [Byte.isDigit, Bool.and_eq_true, decide_eq_true_eq, UInt8.le_iff_toNat_le] at digit
      have high : b.toNat ≤ 57 := digit.2
      simp only [Byte.isWordStart, Byte.isLetter, Bool.or_eq_true, Bool.and_eq_true,
        decide_eq_true_eq, beq_iff_eq, UInt8.le_iff_toNat_le] at h
      rcases h with (⟨low, _⟩ | ⟨low, _⟩) | rfl
      · have low : 65 ≤ b.toNat := low
        omega
      · have low : 97 ≤ b.toNat := low
        omega
      · exact absurd high (by decide)

theorem isSign_of_isWordStart
    {b : UInt8}
    (h : Byte.isWordStart b) :
    Byte.isSign b = false := by
  simp only [Byte.isSign, Bool.or_eq_false_iff, beq_eq_false_iff_ne]
  exact ⟨ne_of_isWordStart h (by decide), ne_of_isWordStart h (by decide)⟩

theorem isBlank_of_isWordStart
    {b : UInt8}
    (h : Byte.isWordStart b) :
    Byte.isBlank b = false := by
  cases blank : Byte.isBlank b with
  | false =>
      rfl
  | true =>
      rcases isBlank_cases blank with eq | eq | eq | eq <;>
        exact absurd eq (ne_of_isWordStart h (by decide))

theorem starts_word
    (h : IsWord text) :
    Starts text := by
  cases h with
  | @mk first more start _ =>
      exact ⟨first, more, rfl, isBlank_of_isWordStart start, ne_of_isWordStart start (by decide),
        ne_of_isWordStart start (by decide), ne_of_isWordStart start (by decide)⟩

/-- A byte that starts a word leads a literal or nothing else. -/
theorem ofByte_word
    {b : UInt8}
    (h : Byte.isWordStart b) :
    (∃ l, Leading.ofByte b = .literal l) ∨ Leading.ofByte b = .other := by
  have leads := Leading.leads_ofByte b
  cases kind : Leading.ofByte b with
  | literal l =>
      exact Or.inl ⟨l, rfl⟩
  | other =>
      exact Or.inr rfl
  | number =>
      rw [kind] at leads
      simp [Leading.Leads, isSign_of_isWordStart h, isDigit_of_isWordStart h] at leads
  | string | array | object =>
      rw [kind] at leads
      exact absurd leads (ne_of_isWordStart h (by decide))

theorem skipWhile_word
    (h : s.rest = text ++ rest)
    (isWord : IsWord text)
    (ends : Delimited rest) :
    s.skipWhile Byte.isWordPart = s.advance text.length :=
  Scanner.skipWhile_eq h isWord.isWordPart fun b hb => (ends b hb).1

/-- Where a literal could stand, a whole word is read that is the literal. -/
theorem relaxedLiteral_eq
    (l : Literal)
    (h : s.rest = l.word ++ rest)
    (ends : Delimited rest) :
    literal .relaxed l s = token l.kind s (s.advance l.word.length) := by
  have passes := Scanner.Passes.advance s l.word.length
  rw [h, List.take_left] at passes
  simp only [literal, skipWhile_word h (isWord_literal l) ends, passes.textTo_eq, if_true]

/-- A word ends a scalar where it cannot become a literal. -/
def RelaxedApart (text rest : List UInt8) : Prop :=
  Follows rest ∧ (rest = [] → ∀ l : Literal, text <+: l.word → text = l.word)

/-- Another word is read there as a string. -/
theorem relaxedLiteral_other
    (l : Literal)
    (h : s.rest = text ++ rest)
    (isWord : IsWord text)
    (other : text ≠ l.word)
    (ends : RelaxedApart text rest) :
    literal .relaxed l s = token .string s (s.advance text.length) := by
  have passes := Scanner.Passes.advance s text.length
  rw [h, List.take_left] at passes
  have left : (s.advance text.length).rest = rest := Scanner.rest_advance h
  have settled : ¬ ((s.advance text.length).atEnd && text.isPrefixOf l.word) := by
    simp only [Scanner.atEnd, left, Bool.and_eq_true, List.isEmpty_iff, List.isPrefixOf_iff_prefix]
    rintro ⟨nil, begins⟩
    exact other (ends.2 nil l begins)
  simp only [literal, skipWhile_word h isWord ends.1.delimited, passes.textTo_eq, if_neg other,
    if_neg settled]

theorem word_eq
    (h : s.rest = text ++ rest)
    (isWord : IsWord text)
    (ends : Delimited rest) :
    word s = token .string s (s.advance text.length) := by
  rw [word, skipWhile_word h isWord ends]

/-- The first byte of a word. -/
theorem peek_word
    (h : s.rest = text ++ rest)
    (isWord : IsWord text) :
    ∃ b, s.peek = some b ∧ Byte.isWordStart b := by
  cases isWord with
  | mk start _ =>
      exact ⟨_, Scanner.peek_of_rest h, start⟩

/-- In the place of a value, a word that is no literal is read as a string. -/
theorem valueOf_word
    (value : Rule)
    (h : s.rest = text ++ rest)
    (isWord : IsWord text)
    (other : ∀ l : Literal, text ≠ l.word)
    (ends : RelaxedApart text rest) :
    valueOf .relaxed value s = token .string s (s.advance text.length) := by
  obtain ⟨b, peek, start⟩ := peek_word h isWord
  simp only [valueOf, peek]
  rcases ofByte_word start with ⟨l, kind⟩ | kind
  · simp only [kind]
    exact relaxedLiteral_other l h isWord (other l) ends
  · have starts : s.peek.any Byte.isWordStart := by simpa [peek] using start
    simp only [kind, unknown, starts, if_true]
    exact word_eq h isWord ends.1.delimited

/-! ## Blanks and comments -/

/-- A comment runs to its line feed. -/
theorem commentedLength_line
    (rest : List UInt8) :
    ∀ {line : List UInt8}, Line line →
      commentedLength true (line ++ Byte.lineFeed :: rest) =
        line.length + (1 + commentedLength false rest)
  | [], _ => by
      simp [commentedLength]
  | b :: line, isLine => by
      have notFeed := isLine b List.mem_cons_self
      have others : Line line := fun c mem => isLine c (List.mem_cons_of_mem _ mem)
      rw [List.cons_append, commentedLength, bne_iff_ne.mpr notFeed,
        commentedLength_line rest others, List.length_cons]
      omega

/-- A comment without a line feed runs to the end. -/
theorem commentedLength_open :
    ∀ {line : List UInt8}, Line line → commentedLength true line = line.length
  | [], _ => rfl
  | b :: line, isLine => by
      have notFeed := isLine b List.mem_cons_self
      have others : Line line := fun c mem => isLine c (List.mem_cons_of_mem _ mem)
      rw [commentedLength, bne_iff_ne.mpr notFeed, commentedLength_open others, List.length_cons]
      omega

theorem commentedLength_trivia
    (rest : List UInt8)
    (h : Trivia text) :
    commentedLength false (text ++ rest) = text.length + commentedLength false rest := by
  induction h with
  | nil =>
      simp
  | blank blank _ ih =>
      rw [List.cons_append, commentedLength, if_pos blank, ih, List.length_cons]
      omega
  | @comment line more isLine _ ih =>
      have notBlank : ¬ Byte.isBlank Byte.hash := by decide
      have split : Byte.hash :: (line ++ Byte.lineFeed :: more) ++ rest =
          Byte.hash :: (line ++ Byte.lineFeed :: (more ++ rest)) := by simp
      rw [split, commentedLength, if_neg notBlank, if_pos rfl, commentedLength_line _ isLine, ih]
      simp only [List.length_cons, List.length_append]
      omega

theorem commentedLength_ending
    (h : Ending text) :
    commentedLength false text = text.length := by
  cases h with
  | closed trivia =>
      simpa [commentedLength] using commentedLength_trivia [] trivia
  | @comment before line trivia isLine =>
      have notBlank : ¬ Byte.isBlank Byte.hash := by decide
      rw [commentedLength_trivia _ trivia, commentedLength, if_neg notBlank, if_pos rfl,
        commentedLength_open isLine, List.length_append, List.length_cons]
      omega

theorem follows_of_trivia
    (h : Trivia text) :
    Follows text := by
  intro b hb
  cases h with
  | nil =>
      cases hb
  | blank blank _ =>
      cases hb
      rcases isBlank_cases blank with rfl | rfl | rfl | rfl <;> decide
  | comment _ _ =>
      cases hb
      decide

/-! ## Completeness of the leaves -/

theorem complete_relaxed :
    Complete .relaxed Lexicon.relaxed RelaxedApart where
  skip := by
    intro text rest trivia ends
    have ends : commentedLength false rest = 0 := ends
    have length := commentedLength_trivia rest trivia
    rw [ends] at length
    exact length
  ending := fun text ending => commentedLength_ending ending
  follows := fun text trivia => follows_of_trivia trivia
  separate := fun text rest follows more => ⟨follows, fun nil => absurd nil more⟩
  keyStarts := by
    intro text content isKey
    cases isKey with
    | string _ =>
        exact starts_quoted _
    | word isWord =>
        exact starts_word isWord
  key := by
    intro s text rest content isKey ahead ends
    cases isKey with
    | @string content isContent =>
        have quote : s.peek = some Byte.quote := Scanner.peek_of_rest ahead
        refine ⟨?_, content_quoted content⟩
        simp only [key, quote, if_true]
        exact string_eq ahead isContent
    | word isWord =>
        obtain ⟨b, peek, start⟩ := peek_word ahead isWord
        have notQuote : s.peek ≠ some Byte.quote := by
          rw [peek]
          exact fun same => ne_of_isWordStart start (by decide) (Option.some.inj same)
        have starts : s.peek.any Byte.isWordStart := by simpa [peek] using start
        refine ⟨?_, content_word isWord⟩
        simp only [key, if_neg notQuote, starts, if_true]
        exact word_eq ahead isWord ends.delimited
  scalarStarts := by
    intro text tree scalar
    cases scalar with
    | literal l =>
        exact starts_literal l
    | number number =>
        obtain ⟨b, more, rfl, leads⟩ := number.leads
        exact starts_of_leads more leads
    | string _ =>
        exact starts_quoted _
    | word isWord _ =>
        exact starts_word isWord
  scalar := by
    intro s text rest tree scalar ahead ends
    cases scalar with
    | literal l =>
        refine ⟨l.kind, ?_, scalar?_literal l⟩
        intro value
        rw [← relaxedLiteral_eq l ahead ends.1.delimited]
        cases l <;> simp only [valueOf, Scanner.peek_of_rest ahead] <;> rfl
    | number number =>
        refine ⟨.number, ?_, scalar?_relaxedNumber number⟩
        intro value
        have eq := relaxedNumber_eq ahead number ends.1
        obtain ⟨b, more, rfl, leads⟩ := number.leads
        simp only [valueOf, Scanner.peek_of_rest ahead, ofByte_number leads]
        exact eq
    | @string content isContent =>
        refine ⟨.string, ?_, scalar?_string content⟩
        intro value
        have quote : s.peek = some Byte.quote := Scanner.peek_of_rest ahead
        simp only [valueOf, quote]
        exact string_eq ahead isContent
    | word isWord other =>
        exact ⟨.string, fun value => valueOf_word value ahead isWord other ends,
          scalar?_word isWord⟩

end Syntax
end JsonDoc
