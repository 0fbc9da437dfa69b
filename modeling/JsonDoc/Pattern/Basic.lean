import JsonDoc.Text.Blank
import JsonDoc.Text.CaseFold
import JsonDoc.Text.DecimalDigit
import JsonDoc.Text.WordCharacter

/-!
# Patterns

The regular expressions that schemas use: classes of characters, sequences, choices, repetitions,
groups, and assertions about the place between two characters.
-/

namespace JsonDoc

/-- A set of characters. -/
inductive CharacterClass where
  | none
  /-- The characters from one code point to another, both included. -/
  | range (first last : Nat)
  | digit
  | word
  | blank
  | complement (of : CharacterClass)
  | union (left right : CharacterClass)
  | intersection (left right : CharacterClass)
  | difference (left right : CharacterClass)
  | symmetricDifference (left right : CharacterClass)
deriving DecidableEq, Repr

namespace CharacterClass

/-- The class of one character. -/
def single (c : Char) : CharacterClass := range c.toNat c.toNat

/-- Whether a character is in a class. Without regard to case, it is in a range if any character
that folds alike is. -/
def contains (ignoreCase : Bool) : CharacterClass → Char → Bool
  | none, _ => false
  | range first last, c =>
    let inside := fun code => decide (first ≤ code) && decide (code ≤ last)
    inside c.toNat || (ignoreCase && (CaseFold.alike c.toNat).any inside)
  | digit, c => DecimalDigit.isDecimalDigit c
  | word, c => WordCharacter.isWord c
  | blank, c => Blank.isBlank c
  | complement of, c => !of.contains ignoreCase c
  | union left right, c => left.contains ignoreCase c || right.contains ignoreCase c
  | intersection left right, c => left.contains ignoreCase c && right.contains ignoreCase c
  | difference left right, c => left.contains ignoreCase c && !right.contains ignoreCase c
  | symmetricDifference left right, c =>
    left.contains ignoreCase c != right.contains ignoreCase c

end CharacterClass

/-- A condition on the place between two characters. -/
inductive Assertion where
  | textStart
  | textEnd
  | lineStart
  | lineEnd
  | wordBoundary
  | noWordBoundary
  | wordStart
  | wordEnd
  /-- No word character before. -/
  | wordStartHalf
  /-- No word character after. -/
  | wordEndHalf
deriving DecidableEq, Repr

namespace Assertion

/-- Whether the condition holds between two characters; at the ends of a text there is none on
one side. -/
def holds (assertion : Assertion) (before after : Option Char) : Bool :=
  let wordBefore := before.any WordCharacter.isWord
  let wordAfter := after.any WordCharacter.isWord
  match assertion with
  | textStart => before.isNone
  | textEnd => after.isNone
  | lineStart => before.all (· == '\n')
  | lineEnd => after.all (· == '\n')
  | wordBoundary => wordBefore != wordAfter
  | noWordBoundary => wordBefore == wordAfter
  | wordStart => !wordBefore && wordAfter
  | wordEnd => wordBefore && !wordAfter
  | wordStartHalf => !wordBefore
  | wordEndHalf => !wordAfter

end Assertion

/-- A regular expression. -/
inductive Pattern where
  | empty
  /-- One character of a class. -/
  | one (ignoreCase : Bool) (of : CharacterClass)
  | assert (assertion : Assertion)
  | sequence (first second : Pattern)
  | choice (first second : Pattern)
  /-- At least `least` times, at most `most` times if there is a bound. -/
  | times (body : Pattern) (least : Nat) (most : Option Nat)
  | group (name : Option String) (body : Pattern)
deriving DecidableEq, Repr

namespace Pattern

/-- The names of the groups, in order. -/
def names : Pattern → List String
  | empty => []
  | one .. => []
  | assert _ => []
  | sequence first second => first.names ++ second.names
  | choice first second => first.names ++ second.names
  | times body _ _ => body.names
  | group name body => name.toList ++ body.names

end Pattern
end JsonDoc
