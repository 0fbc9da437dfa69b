import JsonDoc.Proofs.Building.Consistency
import JsonDoc.Proofs.Building.Contents
import JsonDoc.Proofs.Reading.Characters
import JsonDoc.Proofs.Syntax.EventTexts

/-!
# Trees hold the text of their source

Where the source is a text, every event is a text of its own, and what a tree holds for a string or
a key stands in the source as it is, between quotes or as a bare word: `read_respects_characters`.
-/

namespace JsonDoc

open Utf8 Syntax

/-- The text between two quotes is a text if the whole is one. -/
theorem Utf8.exists_text_of_quoted
    {chars : List Char} {content : List UInt8}
    (text : encode chars = quoted content) :
    ∃ inside, content = encode inside := by
  have first : Boundary chars 1 := boundary_one text (by decide)
  have last : Boundary chars (1 + content.length) := by
    have split : encode chars = (Byte.quote :: content) ++ Byte.quote :: [] := text
    have before := boundary_before (by decide) split
    rwa [List.length_cons, Nat.add_comm] at before
  obtain ⟨inside, slice⟩ := first.slice last (Nat.le_add_right 1 _)
  refine ⟨inside, ?_⟩
  rw [← slice, text]
  simp [quoted]

namespace Event

/-- The event holds the content exactly as it stands in the source. -/
def Spells (event : Event) (content : String) : Prop :=
  event.kind = .string ∧
    (event.text = quoted (ofText content) ∨ IsWord event.text ∧ event.text = ofText content)

variable {event : Event} {chars : List Char}

theorem spells_content
    (isString : event.kind = .string)
    (token : IsStringToken event.text)
    (text : event.text = encode chars) :
    event.Spells (Builder.content event.text) := by
  refine ⟨isString, ?_⟩
  generalize event.text = bytes at token text ⊢
  cases token with
  | @quoted content isContent =>
      obtain ⟨inside, rfl⟩ := exists_text_of_quoted text.symm
      refine Or.inl ?_
      rw [content_quoted, toText, decode_encode, ofText, String.toList_ofList]
  | word isWord =>
      refine Or.inr ⟨isWord, ?_⟩
      rw [content_word isWord, text, toText, decode_encode, ofText, String.toList_ofList]

end Event

namespace Document

open Grammar Events

variable {g : Grammar} {options : ParserOptions} {source : List Char}

/-- The text of an event stands between two boundaries. -/
theorem exists_text_of_event
    (maxDepth : Option Nat)
    {event : Event}
    (mem : event ∈ (g.read maxDepth (encode source)).events) :
    ∃ text, event.text = encode text ∧
      event.span.slice? (encode source) = some event.text := by
  obtain ⟨start, stop⟩ := (aligned_read g maxDepth source).2 event mem
  obtain ⟨moved, slice⟩ := covers_read g maxDepth (encode source) event mem
  obtain ⟨text, eq⟩ := start.slice stop (Nat.le_of_lt moved)
  refine ⟨text, ?_, slice⟩
  unfold Span.slice? at slice
  split at slice
  · exact (Option.some.inj slice).symm.trans eq
  · simp at slice

/-- A tree that is read from the front is what the events denote. -/
theorem denotes_of_readFront
    {input : List UInt8} {tree : Tree} {stop : Nat}
    (front : readFront g options input = .ok (tree, stop)) :
    Denotes (g.read options.maxDepth input).events tree ∧
      stop = (g.read options.maxDepth input).stop.position := by
  unfold readFront at front
  simp only at front
  split at front
  · simp at front
  · split at front
    · simp at front
    · rename_i built build
      cases front
      exact ⟨Builder.denotes_of_build build, rfl⟩

/-- What is read as one tree is what the events denote. -/
theorem denotes_of_readTree
    {input : List UInt8} {tree : Tree}
    (accepted : readTree g options input = .ok tree) :
    Denotes (g.read options.maxDepth input).events tree :=
  Builder.denotes_of_build (read_of_readTree accepted).2.1

/-- Where no tree is read the grammar has failed, or something follows the value. -/
theorem readTree_error_cases
    {input : List UInt8} {fault : Fault}
    (failed : readTree g options input = .error fault) :
    (∃ error, (g.read options.maxDepth input).error = some error ∧ fault = .parse error) ∨
      fault = .build
        (.trailingData ⟨(g.read options.maxDepth input).stop.position, input.length⟩) := by
  cases error : (g.read options.maxDepth input).error with
  | some e =>
      rw [readTree, readFront_of_error error] at failed
      cases failed
      exact Or.inl ⟨e, rfl, rfl⟩
  | none =>
      obtain ⟨tree, front⟩ := readFront_of_read error
      rw [readTree, front] at failed
      simp only at failed
      split at failed
      · cases failed
        exact Or.inr rfl
      · simp at failed

/-- What keeps a text from being read stands between two characters. -/
theorem boundary_fault
    {fault : Fault}
    (failed : readTree g options (encode source) = .error fault) :
    ∃ offset, fault.offset? = some offset ∧ Boundary source offset := by
  rcases readTree_error_cases failed with ⟨error, stopped, rfl⟩ | rfl
  · exact ⟨_, rfl, boundary_error stopped⟩
  · exact ⟨_, rfl, (aligned_read g options.maxDepth source).1.position⟩

/-- Reading goes by characters, though it looks at bytes and passes a backslash with a single byte.
Every event starts and stops between two characters of the source, and so has a text of its own.
No error stands inside a character. Every string and every key of the tree is, character by
character, what an event has between its quotes, or the bare word that the event is. -/
theorem read_respects_characters
    (g : Grammar)
    (options : ParserOptions)
    (source : String) :
    (∀ event ∈ (g.read options.maxDepth (ofText source)).events,
        Boundary source.toList event.span.start ∧ Boundary source.toList event.span.stop ∧
          ∃ text, event.text = encode text ∧
            event.span.slice? (ofText source) = some event.text) ∧
      (∀ error, (g.read options.maxDepth (ofText source)).error = some error →
        Boundary source.toList error.offset) ∧
      (∀ fault, readTree g options (ofText source) = .error fault →
        ∃ offset, fault.offset? = some offset ∧ Boundary source.toList offset) ∧
      ∀ tree stop, readFront g options (ofText source) = .ok (tree, stop) →
        Boundary source.toList stop ∧
          Denotes (g.read options.maxDepth (ofText source)).events tree ∧
          tree.AllContent fun content =>
            ∃ event ∈ (g.read options.maxDepth (ofText source)).events, event.Spells content := by
  have between := aligned_read g options.maxDepth source.toList
  refine ⟨?_, fun error => boundary_error, fun fault => boundary_fault, ?_⟩
  · intro event mem
    obtain ⟨start, stop⟩ := between.2 event mem
    exact ⟨start, stop, exists_text_of_event options.maxDepth mem⟩
  · intro tree stop front
    obtain ⟨denotes, rfl⟩ := denotes_of_readFront front
    refine ⟨between.1.position, denotes, denotes.allContent fun event mem isString => ?_⟩
    obtain ⟨text, same, _⟩ := exists_text_of_event options.maxDepth mem
    exact ⟨event, mem, Event.spells_content isString
      ((isToken_read g _ _ event mem).string isString)
      same⟩

/-- A backslash before a character of two bytes: the string is read as it stands, and what follows
it is reported between two characters. -/
theorem read_respects_characters_escape :
    readTree .strict ⟨none⟩ (ofText "\"\\é\" x") = .error (.build (.trailingData ⟨6, 7⟩)) ∧
      Boundary "\"\\é\" x".toList 6 ∧
      ∃ event ∈ (strict.read none (ofText "\"\\é\" x")).events, event.Spells "\\é" := by
  have failed : readTree .strict ⟨none⟩ (ofText "\"\\é\" x") =
      .error (.build (.trailingData ⟨6, 7⟩)) := by rfl
  have front : readFront .strict ⟨none⟩ (ofText "\"\\é\" x") = .ok (.string "\\é", 6) := by rfl
  obtain ⟨_, _, faults, trees⟩ := read_respects_characters .strict ⟨none⟩ "\"\\é\" x"
  obtain ⟨offset, here, boundary⟩ := faults _ failed
  cases here
  obtain ⟨_, _, contents⟩ := trees _ _ front
  cases contents with
  | string verbatim =>
      exact ⟨failed, boundary, verbatim⟩

end Document
end JsonDoc
