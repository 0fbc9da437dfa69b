import JsonDoc.Proofs.Reading.Composition
import JsonDoc.Proofs.Syntax.Tiling

/-!
# The texts of events

Every event that a run emits is a bracket or a token of the dialect, whether the run succeeds or
not: `isToken_read`. The text of a string is then content between quotes, or a bare word.
-/

namespace JsonDoc
namespace Syntax

open Run Grammar

/-- The event is a bracket, a key of the dialect, or a scalar of the dialect with its value. -/
inductive IsToken (lex : Lexicon) : Event → Prop
  | bracket {event : Event} : event.kind.isBegin ∨ event.kind.isEnd → IsToken lex event
  | key {event : Event} : event.kind = .string →
      lex.key event.text (Builder.content event.text) → IsToken lex event
  | scalar {event : Event} {tree : Tree} : event.scalar? = some tree →
      lex.scalar event.text tree → IsToken lex event

/-- What a string token looks like: content between quotes, or a bare word. -/
inductive IsStringToken : List UInt8 → Prop
  | quoted {content : List UInt8} : IsContent content → IsStringToken (quoted content)
  | word {text : List UInt8} : IsWord text → IsStringToken text

variable {g : Grammar} {event : Event}

theorem isStringToken_key
    {text : List UInt8} {content : String}
    (h : g.lexicon.key text content) :
    IsStringToken text := by
  cases g with
  | strict =>
      cases h with
      | string isContent =>
          exact .quoted isContent
  | relaxed =>
      cases h with
      | string isContent =>
          exact .quoted isContent
      | word isWord =>
          exact .word isWord

theorem isStringToken_scalar
    {text : List UInt8} {content : String}
    (h : g.lexicon.scalar text (.string content)) :
    IsStringToken text := by
  cases g with
  | strict =>
      cases h with
      | string isContent =>
          exact .quoted isContent
  | relaxed =>
      generalize isString : Tree.string content = tree at h
      cases h with
      | literal l =>
          cases l <;> cases isString
      | number _ =>
          cases isString
      | string isContent =>
          exact .quoted isContent
      | word isWord _ =>
          exact .word isWord

theorem IsToken.string
    (h : IsToken g.lexicon event)
    (isString : event.kind = .string) :
    IsStringToken event.text := by
  cases h with
  | bracket isBracket =>
      simp [isString, EventKind.isBegin, EventKind.isEnd] at isBracket
  | key _ isKey =>
      exact isStringToken_key isKey
  | scalar value isScalar =>
      simp only [Event.scalar?, isString, Option.some.injEq] at value
      subst value
      exact isStringToken_scalar isScalar

/-! ## Runs -/

/-- The events of a run are tokens of the lexicon. -/
def EmitsTokens
    (lex : Lexicon)
    (run : Run) : Prop :=
  ∀ event ∈ run.events, IsToken lex event

variable {lex : Lexicon} {run : Run} {s : Scanner}

theorem emitsTokens_of_silent
    (silent : run.events = []) :
    EmitsTokens lex run := by
  simp [EmitsTokens, silent]

theorem emitsTokens_of_reads
    {kind : EventKind} {text : List UInt8}
    (reads : ReadsToken kind s run text)
    (h : ∀ span, IsToken lex ⟨kind, span, text⟩) :
    EmitsTokens lex run := by
  obtain ⟨span, events⟩ := reads.events
  intro event mem
  rw [events, List.mem_singleton] at mem
  exact mem ▸ h span

theorem emitsTokens_opening
    {byte : UInt8}
    (peek : s.peek = some byte)
    {kind : EventKind}
    (isBegin : kind.isBegin)
    (expected : Expectation) :
    EmitsTokens lex (opening byte expected kind s) := by
  cases limited : s.deeper.exceeded? with
  | none =>
      rw [opening_of_within peek limited]
      intro event mem
      rw [List.mem_singleton.mp mem]
      exact .bracket (Or.inl isBegin)
  | some limit =>
      rw [opening_of_exceeded limited]
      exact emitsTokens_of_silent rfl

theorem emitsTokens_closing
    {byte : UInt8} {kind : EventKind}
    (isEnd : kind.isEnd)
    (expected : Expectation)
    (s : Scanner) :
    EmitsTokens lex (closing byte expected kind s) := by
  by_cases peek : s.peek = some byte
  · rw [closing_of_peek peek]
    intro event mem
    rw [List.mem_singleton.mp mem]
    exact .bracket (Or.inr isEnd)
  · rw [closing_of_peek_ne peek]
    exact emitsTokens_of_silent rfl

theorem emitsTokens_key
    (g : Grammar)
    (s : Scanner) :
    EmitsTokens g.lexicon (g.key s) := by
  by_cases ok : (g.key s).error = none
  · obtain ⟨text, reads, isKey⟩ := g.sound_lexicon.key s ok
    exact emitsTokens_of_reads reads fun _ => .key rfl isKey
  · exact emitsTokens_of_silent (failsSilently_key g s ok)

theorem emitsTokens_scalar
    (value : Rule)
    (notArray : s.peek ≠ some Byte.openBracket)
    (notObject : s.peek ≠ some Byte.openBrace) :
    EmitsTokens g.lexicon (g.valueOf value s) := by
  by_cases ok : (g.valueOf value s).error = none
  · obtain ⟨kind, text, tree, reads, isScalar, isValue⟩ :=
      g.sound_lexicon.scalar s value ok notArray notObject
    exact emitsTokens_of_reads reads fun span => .scalar (isValue span) isScalar
  · exact emitsTokens_of_silent (failsSilently_scalar value notArray notObject ok)

theorem EmitsTokens.andThen
    {next : Rule}
    (h : EmitsTokens lex run)
    (hn : run.error = none → EmitsTokens lex (next run.stop)) :
    EmitsTokens lex (run.andThen next) := by
  cases error : run.error with
  | some e =>
      rwa [andThen_of_error error]
  | none =>
      intro event mem
      rw [events_andThen error, List.mem_append] at mem
      rcases mem with mem | mem
      · exact h event mem
      · exact hn error event mem

theorem composes_emitsTokens
    (g : Grammar) :
    g.Composes fun _ run => EmitsTokens g.lexicon run where
  done _ := emitsTokens_of_silent rfl
  missing _ _ := emitsTokens_of_silent rfl
  unexpected _ _ := emitsTokens_of_silent rfl
  andThen := EmitsTokens.andThen
  skip := id
  separator _ _ := id
  opening expected peek _ isBegin := emitsTokens_opening peek isBegin expected
  closing expected s _ isEnd := emitsTokens_closing isEnd expected s
  key := emitsTokens_key g
  scalar value := emitsTokens_scalar value

/-- Every event is a token of the dialect, also where reading fails later on. -/
theorem isToken_read
    (g : Grammar)
    (maxDepth : Option Nat)
    (input : List UInt8) :
    ∀ event ∈ (g.read maxDepth input).events, IsToken g.lexicon event :=
  (composes_emitsTokens g).read maxDepth input

/-- Every event covers at least one byte, and its text is what it covers. -/
theorem covers_read
    (g : Grammar)
    (maxDepth : Option Nat)
    (input : List UInt8) :
    ∀ event ∈ (g.read maxDepth input).events, event.span.start < event.span.stop ∧
      event.span.slice? input = some event.text := by
  obtain ⟨text, rest, _, ahead, tiles⟩ := (g.tiled_value (Scanner.start input maxDepth)).begun
  have ahead : input = [] ++ (text ++ rest) := ahead
  rw [← g.events_read maxDepth input] at tiles
  exact tiles.covers ahead

end Syntax
end JsonDoc
