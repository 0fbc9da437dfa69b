import JsonDoc.Proofs.Syntax.Soundness

/-!
# Texts tiled with events

A text is tiled with events if each event covers its own bytes, one after another, and what is left
between them means nothing: trivia, and at most one comma or colon between two events. `Tiles` says
so of a text with what comes before it and after it, so that texts that are tiled may be put
together, `Tiles.append`. A run is `Tiled` if its events tile the bytes that it has passed, and a
run that fails if they tile some of the bytes ahead.
-/

namespace JsonDoc
namespace Syntax

open Run Grammar

/-! ## Gaps -/

/-- A byte that separates items, or a key from its value. -/
def IsSeparator (b : UInt8) : Prop := b = Byte.comma ∨ b = Byte.colon

/-- What may stand between two tokens: trivia with at most one separator. -/
inductive Gap (trivia : List UInt8 → Prop) : List UInt8 → Prop
  | plain {text : List UInt8} : trivia text → Gap trivia text
  | separated {before after : List UInt8} {separator : UInt8} :
      trivia before → IsSeparator separator → trivia after →
      Gap trivia (before ++ separator :: after)

/-- The bytes of a gap, given whether a separator has come before them, and whether one has come
after them. -/
inductive Spaces (trivia : List UInt8 → Prop) : Bool → List UInt8 → Bool → Prop
  | plain {passed : Bool} {text : List UInt8} : trivia text → Spaces trivia passed text passed
  | separated {before after : List UInt8} {separator : UInt8} :
      trivia before → IsSeparator separator → trivia after →
      Spaces trivia false (before ++ separator :: after) true

variable {trivia : List UInt8 → Prop} {passed passed' passed'' : Bool} {text more : List UInt8}

theorem Spaces.gap
    (h : Spaces trivia passed text passed') :
    Gap trivia text := by
  cases h with
  | plain isTrivia =>
      exact .plain isTrivia
  | separated isBefore isSeparator isAfter =>
      exact .separated isBefore isSeparator isAfter

theorem Spaces.trivia_of_true
    (h : Spaces trivia true text passed') :
    trivia text := by
  cases h with
  | plain isTrivia =>
      exact isTrivia

/-- Trivia that follows trivia is trivia. -/
def Joins (trivia : List UInt8 → Prop) : Prop :=
  trivia [] ∧ ∀ a b, trivia a → trivia b → trivia (a ++ b)

theorem Spaces.append
    (joins : Joins trivia)
    (h : Spaces trivia passed text passed')
    (k : Spaces trivia passed' more passed'') :
    Spaces trivia passed (text ++ more) passed'' := by
  cases h with
  | plain isTrivia =>
      cases k with
      | plain isMore =>
          exact .plain (joins.2 _ _ isTrivia isMore)
      | separated isBefore isSeparator isAfter =>
          rw [← List.append_assoc]
          exact .separated (joins.2 _ _ isTrivia isBefore) isSeparator isAfter
  | separated isBefore isSeparator isAfter =>
      cases k with
      | plain isMore =>
          rw [List.append_assoc, List.cons_append]
          exact .separated isBefore isSeparator (joins.2 _ _ isAfter isMore)

/-! ## Tiles -/

/-- The text from an offset on is tiled with the events. -/
def Tiles
    (trivia : List UInt8 → Prop) :
    Bool → Nat → List UInt8 → List Event → Bool → Prop
  | passed, _, text, [], passed' => Spaces trivia passed text passed'
  | passed, offset, text, event :: events, passed' =>
    ∃ gap rest between, Spaces trivia passed gap between ∧ event.text ≠ [] ∧
      event.span = ⟨offset + gap.length, offset + gap.length + event.text.length⟩ ∧
      text = gap ++ (event.text ++ rest) ∧ Tiles trivia false event.span.stop rest events passed'

namespace Tiles

variable {offset : Nat} {events later : List Event}

theorem append
    (joins : Joins trivia)
    (h : Tiles trivia passed offset text events passed')
    (k : Tiles trivia passed' (offset + text.length) more later passed'') :
    Tiles trivia passed offset (text ++ more) (events ++ later) passed'' := by
  induction events generalizing passed offset text with
  | nil =>
      cases later with
      | nil =>
          exact h.append joins k
      | cons event later =>
          obtain ⟨gap, rest, between, spaces, moved, span, rfl, tiles⟩ := k
          refine ⟨text ++ gap, rest, between, h.append joins spaces, moved, ?_, ?_, tiles⟩
          · rw [span, List.length_append, Nat.add_assoc offset]
          · rw [List.append_assoc]
  | cons event events ih =>
      obtain ⟨gap, rest, between, spaces, moved, span, rfl, tiles⟩ := h
      refine ⟨gap, rest ++ more, between, spaces, moved, span, ?_, ih tiles ?_⟩
      · simp only [List.append_assoc]
      · rw [span]
        simpa only [List.length_append, Nat.add_assoc] using k

variable {input front back : List UInt8} {event next : Event} {before after : List Event}

theorem slice?_of_append
    (h : input = front ++ (text ++ back)) :
    (Span.mk front.length (front.length + text.length)).slice? input = some text := by
  have inside : front.length ≤ front.length + text.length ∧
      front.length + text.length ≤ input.length := by
    rw [h]
    simp only [List.length_append]
    omega
  unfold Span.slice?
  rw [if_pos inside, h, List.drop_left, Span.length, Nat.add_sub_cancel_left, List.take_left]

/-- Each event covers its bytes. -/
theorem covers
    (h : Tiles trivia passed front.length text events passed')
    (ahead : input = front ++ (text ++ back)) :
    ∀ event ∈ events, event.span.start < event.span.stop ∧
      event.span.slice? input = some event.text := by
  induction events generalizing passed front text with
  | nil =>
      simp
  | cons event events ih =>
      obtain ⟨gap, rest, between, spaces, moved, span, rfl, tiles⟩ := h
      have here : input = (front ++ gap) ++ (event.text ++ (rest ++ back)) := by
        simpa using ahead
      have start : event.span =
          ⟨(front ++ gap).length, (front ++ gap).length + event.text.length⟩ := by
        rw [span, List.length_append]
      have stop : event.span.stop = ((front ++ gap) ++ event.text).length := by
        rw [start]
        simp only [List.length_append]
      intro e mem
      rcases List.mem_cons.mp mem with rfl | mem
      · rw [start]
        refine ⟨?_, slice?_of_append here⟩
        have := List.length_pos_iff.mpr moved
        simp only
        omega
      · rw [stop] at tiles
        exact ih tiles (by simpa using here) e mem

/-- The bytes before the first event. -/
theorem first
    (h : Tiles trivia passed front.length text (event :: events) passed')
    (ahead : input = front ++ (text ++ back)) :
    ∃ gap between, (Span.mk front.length event.span.start).slice? input = some gap ∧
      Spaces trivia passed gap between := by
  obtain ⟨gap, rest, between, spaces, moved, span, rfl, tiles⟩ := h
  have here : input = front ++ (gap ++ (event.text ++ rest ++ back)) := by
    simpa using ahead
  refine ⟨gap, between, ?_, spaces⟩
  rw [span]
  exact slice?_of_append here

/-- What follows an event is tiled with the later events. -/
theorem rest
    (h : Tiles trivia passed front.length text (before ++ event :: after) passed')
    (ahead : input = front ++ (text ++ back)) :
    ∃ front' text', input = front' ++ (text' ++ back) ∧ event.span.stop = front'.length ∧
      Tiles trivia false front'.length text' after passed' ∧
      front'.length + text'.length = front.length + text.length := by
  induction before generalizing passed front text with
  | nil =>
      obtain ⟨gap, rest, between, spaces, moved, span, rfl, tiles⟩ := h
      have stop : event.span.stop = (front ++ gap ++ event.text).length := by
        rw [span]
        simp only [List.length_append]
      rw [stop] at tiles
      refine ⟨front ++ gap ++ event.text, rest, by simpa using ahead, stop, tiles, ?_⟩
      simp only [List.length_append]
      omega
  | cons first before ih =>
      obtain ⟨gap, rest, between, spaces, moved, span, rfl, tiles⟩ := h
      have stop : first.span.stop = (front ++ gap ++ first.text).length := by
        rw [span]
        simp only [List.length_append]
      rw [stop] at tiles
      obtain ⟨front', text', ahead', same, tiles', total⟩ := ih tiles (by simpa using ahead)
      refine ⟨front', text', ahead', same, tiles', ?_⟩
      rw [total]
      simp only [List.length_append]
      omega

/-- A text that ends without a separator, though one would have come before it, has a last event,
and trivia after that. -/
theorem last
    (h : Tiles trivia true front.length text events false)
    (ahead : input = front ++ (text ++ back)) :
    ∃ event gap front', events.getLast? = some event ∧ trivia gap ∧
      event.span.stop = front'.length ∧ input = front' ++ (gap ++ back) ∧
      front'.length + gap.length = front.length + text.length := by
  rcases List.eq_nil_or_concat events with rfl | ⟨before, event, rfl⟩
  · cases h
  · rw [List.concat_eq_append] at h ⊢
    obtain ⟨front', gap, ahead', stop, tiles, total⟩ := h.rest ahead
    have spaces : Spaces trivia false gap false := tiles
    cases spaces with
    | plain isTrivia =>
        exact ⟨event, gap, front', by simp, isTrivia, stop, ahead', total⟩

end Tiles

end Syntax
end JsonDoc
