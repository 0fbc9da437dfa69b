import JsonDoc.Proofs.Number.Token
import JsonDoc.Proofs.Syntax.Recognition
import JsonDoc.Proofs.Syntax.StrictToken

/-!
# Standard JSON

The strict grammar reads exactly the documents of standard JSON, each as the tree that its
derivation stands for.
-/

namespace JsonDoc
namespace Syntax

open Run Grammar Events NumberText

variable {s : Scanner} {text : List UInt8}

theorem content_quoted
    (content : List UInt8) :
    Builder.content (quoted content) = Utf8.toText content := by
  simp [Builder.content, quoted]

theorem strictScalar_literal
    (l : Literal) :
    StrictScalar l.word (literalTree l) := by
  cases l with
  | true =>
      exact .true
  | false =>
      exact .false
  | null =>
      exact .null

theorem scalar?_literal
    (l : Literal)
    (span : Span) :
    (Event.mk l.kind span l.word).scalar? = some (literalTree l) := by
  cases l <;> rfl

theorem scalar?_string
    (content : List UInt8)
    (span : Span) :
    (Event.mk .string span (quoted content)).scalar? = some (.string (Utf8.toText content)) := by
  simp [Event.scalar?, content_quoted]

theorem scalar?_number
    (number : IsNumber text)
    (span : Span) :
    (Event.mk .number span text).scalar? = some (.number (numberValue text)) := by
  simp [Event.scalar?, value?_of_isNumber number]

/-! ## Soundness of the leaves -/

theorem sound_strict :
    Sound .strict Lexicon.strict where
  skip := by
    intro bytes
    have blanks : Blanks (bytes.take (triviaLength .strict bytes)) := by
      have eq : bytes.take (triviaLength .strict bytes) = bytes.takeWhile Byte.isBlank :=
        (List.prefix_iff_eq_take.mp (List.takeWhile_prefix _)).symm
      rw [eq]
      exact blanks_takeWhile bytes
    exact ⟨blanks, fun _ => blanks⟩
  key := by
    intro s ok
    simp only [key] at ok ⊢
    split
    · rename_i quote
      rw [if_pos quote] at ok
      obtain ⟨content, isContent, reads⟩ := string_sound ok
      refine ⟨_, reads, ?_⟩
      rw [content_quoted]
      exact .string isContent
    · rename_i notQuote
      simp [notQuote, missing, fail] at ok
  scalar := by
    intro s value ok notArray notObject
    revert ok
    refine valueOf_scalar (P := fun run => run.error = none → ∃ kind text tree,
      ReadsToken kind s run text ∧ Lexicon.strict.scalar text tree ∧
        ∀ span, (Event.mk kind span text).scalar? = some tree) value notArray notObject ?nothing
      ?number ?string ?literal ?unknown
    case nothing =>
      exact fun ok => by simp [missing, fail] at ok
    case number =>
      intro ok
      obtain ⟨text, number, reads⟩ := number_sound ok
      exact ⟨_, _, _, reads, .number number, scalar?_number number⟩
    case string =>
      intro _ ok
      obtain ⟨content, isContent, reads⟩ := string_sound ok
      exact ⟨_, _, _, reads, .string isContent, scalar?_string content⟩
    case literal =>
      intro _ l _ _ ok
      exact ⟨_, _, _, literal_sound ok, strictScalar_literal l, scalar?_literal l⟩
    case unknown =>
      exact fun _ _ _ ok => by simp [unknown, missing, fail] at ok

/-! ## Completeness of the leaves -/

/-- A number ends only where the text does not go on as a number or a word could. -/
def StrictApart (text rest : List UInt8) : Prop :=
  ∀ front last, text = front ++ [last] → Byte.isDigit last → Delimited rest

theorem Digits.endsInDigit
    (h : Digits text) :
    EndsIn Byte.isDigit text := endsIn_of_all h.1 h.2

theorem IsInteger.endsInDigit
    (h : IsInteger text) :
    EndsIn Byte.isDigit text := by
  cases h with
  | zero =>
      exact ⟨[], Byte.zero, rfl, by decide⟩
  | positive first more =>
      refine endsIn_of_all (by simp) ?_
      intro b mem
      rcases List.mem_cons.mp mem with rfl | mem
      · exact isDigit_of_isPositiveDigit first
      · exact more b mem

theorem IsMagnitude.endsInDigit
    (h : IsMagnitude text) :
    EndsIn Byte.isDigit text := by
  cases h with
  | @mk integer fraction exponent int frac exp =>
      have ends := int.endsInDigit
      cases exp with
      | none =>
          cases frac with
          | none =>
              simpa using ends
          | some digits =>
              simpa using digits.endsInDigit.append_left (integer ++ [Byte.dot])
      | @unsigned mark _ _ digits =>
          simpa using digits.endsInDigit.append_left (integer ++ fraction ++ [mark])
      | @signed mark sign _ _ _ digits =>
          simpa using digits.endsInDigit.append_left (integer ++ fraction ++ [mark, sign])

theorem IsNumber.endsInDigit
    (h : IsNumber text) :
    EndsIn Byte.isDigit text := by
  cases h with
  | positive magnitude =>
      exact magnitude.endsInDigit
  | negative magnitude =>
      exact magnitude.endsInDigit.append_left [Byte.minus]

/-- The first byte of a number leads it. -/
theorem IsNumber.leads
    (h : IsNumber text) :
    ∃ b more, text = b :: more ∧ (Byte.isSign b ∨ Byte.isDigit b) := by
  cases h with
  | positive magnitude =>
      obtain ⟨b, more, rfl, digit⟩ := magnitude.head
      exact ⟨b, more, rfl, Or.inr digit⟩
  | negative magnitude =>
      exact ⟨Byte.minus, _, rfl, Or.inl (by decide)⟩

theorem isBlank_cases
    {b : UInt8}
    (h : Byte.isBlank b) :
    b = 0x20 ∨ b = 0x09 ∨ b = 0x0A ∨ b = 0x0D := by
  simpa only [Byte.isBlank, Bool.or_eq_true, beq_iff_eq, or_assoc] using h

theorem starts_of_leads
    {b : UInt8}
    (more : List UInt8)
    (h : Byte.isSign b ∨ Byte.isDigit b) :
    Starts (b :: more) := by
  have other : ∀ c : UInt8, Byte.isSign c = false → Byte.isDigit c = false → b ≠ c := by
    rintro c notSign notDigit rfl
    simp [notSign, notDigit] at h
  refine ⟨b, more, rfl, ?_, other _ (by decide) (by decide), other _ (by decide) (by decide),
    other _ (by decide) (by decide)⟩
  cases blank : Byte.isBlank b with
  | false =>
      rfl
  | true =>
      rcases isBlank_cases blank with eq | eq | eq | eq <;>
        exact absurd eq (other _ (by decide) (by decide))

theorem follows_of_blanks
    (h : Blanks text) :
    Follows text := by
  intro b hb
  obtain ⟨more, rfl⟩ := List.head?_eq_some_iff.mp hb
  rcases isBlank_cases (h b List.mem_cons_self) with rfl | rfl | rfl | rfl <;> decide

theorem triviaLength_blanks
    (h : Blanks text)
    {rest : List UInt8}
    (ends : triviaLength .strict rest = 0) :
    triviaLength .strict (text ++ rest) = text.length := by
  rw [triviaLength, List.length_eq_zero_iff] at ends
  rw [triviaLength, List.takeWhile_append_of_pos h, ends, List.append_nil]

theorem starts_quoted
    (content : List UInt8) :
    Starts (quoted content) :=
  ⟨Byte.quote, _, rfl, by decide, by decide, by decide, by decide⟩

theorem starts_literal
    (l : Literal) :
    Starts l.word := by
  cases l <;> exact ⟨_, _, rfl, by decide, by decide, by decide, by decide⟩

theorem strictScalar_starts
    {tree : Tree}
    (h : StrictScalar text tree) :
    Starts text := by
  cases h with
  | null | true | false =>
      exact starts_literal _
  | number number =>
      obtain ⟨b, more, rfl, leads⟩ := number.leads
      exact starts_of_leads more leads
  | string _ =>
      exact starts_quoted _

theorem ofByte_number
    {b : UInt8}
    (h : Byte.isSign b ∨ Byte.isDigit b) :
    Leading.ofByte b = .number := by
  simp only [Leading.ofByte, Bool.or_eq_true, h, if_true]

theorem valueOf_literal
    {rest : List UInt8}
    (l : Literal)
    (value : Rule)
    (ahead : s.rest = l.word ++ rest) :
    valueOf .strict value s = token l.kind s (s.advance l.word.length) := by
  rw [← literal_eq l ahead]
  cases l <;> simp only [valueOf, Scanner.peek_of_rest ahead] <;> rfl

theorem complete_strict :
    Complete .strict Lexicon.strict StrictApart where
  skip := fun text rest blanks ends => triviaLength_blanks blanks ends
  ending := by
    intro text blanks
    have whole := triviaLength_blanks blanks (show triviaLength .strict [] = 0 from rfl)
    rwa [List.append_nil] at whole
  follows := fun text blanks => follows_of_blanks blanks
  separate := fun text rest follows _ _ _ _ _ => follows.delimited
  keyStarts := by
    intro text content isKey
    cases isKey with
    | string _ =>
        exact starts_quoted _
  key := by
    intro s text rest content isKey ahead _
    cases isKey with
    | @string content isContent =>
        have quote : s.peek = some Byte.quote := Scanner.peek_of_rest ahead
        refine ⟨?_, content_quoted content⟩
        simp only [key, quote, if_true]
        exact string_eq ahead isContent
  scalarStarts := fun text tree scalar => strictScalar_starts scalar
  scalar := by
    intro s text rest tree scalar ahead ends
    cases scalar with
    | null =>
        exact ⟨_, fun value => valueOf_literal .null value ahead, scalar?_literal .null⟩
    | true =>
        exact ⟨_, fun value => valueOf_literal .true value ahead, scalar?_literal .true⟩
    | false =>
        exact ⟨_, fun value => valueOf_literal .false value ahead, scalar?_literal .false⟩
    | number number =>
        refine ⟨.number, ?_, scalar?_number number⟩
        intro value
        obtain ⟨front, last, split, digit⟩ := number.endsInDigit
        have eq := number_eq ahead number (ends front last split digit)
        obtain ⟨b, more, rfl, leads⟩ := number.leads
        simp only [valueOf, Scanner.peek_of_rest ahead, ofByte_number leads]
        exact eq
    | @string content isContent =>
        refine ⟨.string, ?_, scalar?_string content⟩
        intro value
        have quote : s.peek = some Byte.quote := Scanner.peek_of_rest ahead
        simp only [valueOf, quote]
        exact string_eq ahead isContent

/-! ## Documents -/

/-- Blanks end every value. -/
theorem strictApart_of_blanks
    {after : List UInt8}
    (blanks : Blanks after) :
    StrictApart text after :=
  fun _ _ _ _ => (follows_of_blanks blanks).delimited

/-- The documents of standard JSON are read, without a limit of depth. -/
theorem readTree_of_document
    {input : List UInt8} {tree : Tree}
    (document : Lexicon.strict.Document input tree) :
    Document.readTree .strict ⟨none⟩ input = .ok tree := by
  refine (readTree_iff sound_strict complete_strict ?_).mpr document
  intro text tree after _ blanks
  exact strictApart_of_blanks blanks

/-- Strict reading accepts exactly the documents of standard JSON, and gives each as the tree
that its derivation stands for. -/
theorem readTree_strict_iff
    (input : List UInt8)
    (tree : Tree) :
    Document.readTree .strict ⟨none⟩ input = .ok tree ↔ Lexicon.strict.Document input tree := by
  refine readTree_iff sound_strict complete_strict ?_
  intro text tree after _ blanks
  exact strictApart_of_blanks blanks

end Syntax
end JsonDoc
