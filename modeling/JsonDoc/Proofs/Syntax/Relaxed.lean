import JsonDoc.Proofs.Number.RelaxedToken
import JsonDoc.Proofs.Syntax.RelaxedToken
import JsonDoc.Proofs.Syntax.Strict

/-!
# The relaxed dialect

The relaxed grammar reads only what the relaxed lexicon derives, `sound_relaxed`: each token as
the value that its derivation stands for. So each dialect reads only what its own lexicon derives,
`Grammar.sound_lexicon`.
-/

namespace JsonDoc
namespace Syntax

open Run Grammar Events

variable {text : List UInt8}

/-- The content of a word is the word. -/
theorem content_word
    (h : IsWord text) :
    Builder.content text = Utf8.toText text := by
  cases h with
  | @mk first more start _ =>
      have notQuote : first ≠ Byte.quote := by
        rintro rfl
        exact absurd start (by decide)
      simp [Builder.content, notQuote]

theorem scalar?_word
    (h : IsWord text)
    (span : Span) :
    (Event.mk .string span text).scalar? = some (.string (Utf8.toText text)) := by
  simp [Event.scalar?, content_word h]

theorem scalar?_relaxedNumber
    (h : IsRelaxedNumber text)
    (span : Span) :
    (Event.mk .number span text).scalar? = some (.number (numberValue text)) := by
  simp [Event.scalar?, value?_of_isRelaxedNumber h]

theorem sound_relaxed :
    Sound .relaxed Lexicon.relaxed where
  skip := fun bytes => (commentedLength_sound bytes).1
  key := by
    intro s ok
    simp only [key] at ok ⊢
    split
    · rename_i quote
      rw [if_pos quote] at ok
      obtain ⟨content, isContent, reads⟩ := string_sound ok
      refine ⟨_, reads, ?_⟩
      rw [content_quoted]
      exact .string isContent
    · rename_i notQuote
      rw [if_neg notQuote] at ok
      split
      · rename_i start
        obtain ⟨b, peek, start⟩ : ∃ b, s.peek = some b ∧ Byte.isWordStart b := by
          simpa [Option.any_eq_true] using start
        obtain ⟨more, ahead, isWord⟩ := isWord_ahead peek start
        have reads := readsToken_word .string s
        rw [ahead] at reads
        refine ⟨_, reads, ?_⟩
        rw [content_word isWord]
        exact .word isWord
      · rename_i notWord
        simp [notWord, missing, fail] at ok
  scalar := by
    intro s value ok notArray notObject
    revert ok
    refine valueOf_scalar (P := fun run => run.error = none → ∃ kind text tree,
      ReadsToken kind s run text ∧ Lexicon.relaxed.scalar text tree ∧
        ∀ span, (Event.mk kind span text).scalar? = some tree) value notArray notObject ?nothing
      ?number ?string ?literal ?unknown
    case nothing =>
      exact fun ok => by simp [missing, fail] at ok
    case number =>
      intro ok
      obtain ⟨text, number, reads⟩ := relaxedNumber_sound ok
      exact ⟨_, _, _, reads, .number number, scalar?_relaxedNumber number⟩
    case string =>
      intro _ ok
      obtain ⟨content, isContent, reads⟩ := string_sound ok
      exact ⟨_, _, _, reads, .string isContent, scalar?_string content⟩
    case literal =>
      intro b l peek kind ok
      rcases relaxedLiteral_sound peek kind ok with reads | ⟨text, isWord, other, reads⟩
      · exact ⟨_, _, _, reads, .literal l, scalar?_literal l⟩
      · exact ⟨_, _, _, reads, .word isWord other, scalar?_word isWord⟩
    case unknown =>
      intro b peek kind ok
      simp only [unknown] at ok ⊢
      split
      · rename_i start
        have start : Byte.isWordStart b := by simpa [peek] using start
        obtain ⟨more, ahead, isWord⟩ := isWord_ahead peek start
        have reads := readsToken_word .string s
        rw [ahead] at reads
        refine ⟨_, _, _, reads, .word isWord fun l => ?_, scalar?_word isWord⟩
        refine ne_word_of_leading ?_
        intro same
        cases kind.symm.trans same
      · rename_i notWord
        simp [notWord, missing, fail] at ok

end Syntax

namespace Grammar

open Syntax

/-- The lexicon of a dialect. -/
def lexicon : Grammar → Lexicon
  | strict => .strict
  | relaxed => .relaxed

theorem sound_lexicon
    (g : Grammar) :
    Sound g g.lexicon := by
  cases g with
  | strict =>
      exact sound_strict
  | relaxed =>
      exact sound_relaxed

end Grammar
end JsonDoc
