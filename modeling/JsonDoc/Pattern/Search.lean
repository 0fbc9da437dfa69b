import JsonDoc.Pattern.Engine
import JsonDoc.Pattern.Parse

/-!
# Searching

A text of `n` characters has `n + 1` places, before, between and after them. A pattern is searched
for with a mark on each place: `Pattern.after` moves the marks from the places where a match may
begin to those where it may end. A pattern occurs in a text if, with all places marked, some mark
is left.
-/

namespace JsonDoc

/-- One mark for each place of a text. -/
abbrev Marks := List Bool

namespace Marks

/-- Marks where either has one. -/
def union (a b : Marks) : Marks := List.zipWith or a b

/-- No marks, on the same places. -/
def clear (marks : Marks) : Marks := marks.map fun _ => false

/-- Marks with all that `step` reaches from them in any number of steps up to `bound`. -/
def saturate (step : Marks → Marks) : Nat → Marks → Marks
  | 0, marks => marks
  | bound + 1, marks =>
    let more := marks.union (step marks)
    if more = marks then marks else saturate step bound more

/-- Marks after exactly `count` steps. -/
def steps (step : Marks → Marks) : Nat → Marks → Marks
  | 0, marks => marks
  | count + 1, marks => steps step count (step marks)

end Marks

namespace Pattern

/-- The characters before and after each place of a text, given the one before it all. -/
def surroundings : Option Char → List Char → List (Option Char × Option Char)
  | before, [] => [(before, none)]
  | before, c :: text => (before, some c) :: surroundings (some c) text

/-- Where a match of the pattern may end when it begins at a marked place. Between two steps of a
repetition the marks only grow, so as many rounds as there are places reach them all. -/
def after (text : List Char) : Pattern → Marks → Marks
  | empty, marks => marks
  | one ignoreCase of, marks =>
    false :: List.zipWith (fun mark c => mark && of.contains ignoreCase c) marks text
  | assert assertion, marks =>
    List.zipWith (fun mark place => mark && assertion.holds place.1 place.2) marks
      (surroundings none text)
  | sequence first second, marks => second.after text (first.after text marks)
  | choice first second, marks => (first.after text marks).union (second.after text marks)
  | times body least most, marks =>
    let begun := Marks.steps (body.after text) least marks
    match most with
    | none => Marks.saturate (body.after text) marks.length begun
    | some most => Marks.saturate (body.after text) (most - least) begun
  | group _ body, marks => body.after text marks

/-- Whether the pattern occurs anywhere in a text. -/
def occursIn (pattern : Pattern) (text : List Char) : Bool :=
  (pattern.after text (List.replicate (text.length + 1) true)).any id

/-- The engine for the patterns that `parse?` reads, which the validator has if it is given none.
Other engines know more of the syntax, such as classes of characters by their Unicode properties,
and bound the size of what they compile. -/
def plain : Engine where
  compile source := (parse? source.toList).map fun pattern text => pattern.occursIn text.toList

end Pattern
end JsonDoc
