import JsonDoc.Text.Utf8

/-!
# Events

An event is one token of a document: what it is, where it stands, and its bytes as they stand in
the input.
-/

namespace JsonDoc

/-- What a token is. -/
inductive EventKind where
  | objectBegin
  | objectEnd
  | arrayBegin
  | arrayEnd
  /-- A quoted string with its quotes, or a bare word. Keys are of this kind too. -/
  | string
  | number
  | boolean
  | null
deriving DecidableEq, Repr

namespace EventKind

/-- Whether the token opens a container. -/
def isBegin : EventKind → Bool
  | objectBegin | arrayBegin => true
  | _ => false

/-- Whether the token closes a container. -/
def isEnd : EventKind → Bool
  | objectEnd | arrayEnd => true
  | _ => false

/-- Whether the token is a value by itself. -/
def isScalar (kind : EventKind) : Bool := !kind.isBegin && !kind.isEnd

/-- The name shown for the kind. -/
def name : EventKind → String
  | objectBegin => "ObjectBegin"
  | objectEnd => "ObjectEnd"
  | arrayBegin => "ArrayBegin"
  | arrayEnd => "ArrayEnd"
  | string => "String"
  | number => "Number"
  | boolean => "Boolean"
  | null => "None"

end EventKind

/-- The bytes from offset `start` up to, not including, offset `stop`. -/
structure Span where
  start : Nat
  stop : Nat
deriving DecidableEq, Repr

namespace Span

def length (span : Span) : Nat := span.stop - span.start

def isEmpty (span : Span) : Bool := span.start == span.stop

/-- The bytes of the input under a span, if it lies inside. -/
def slice? (span : Span) (input : List UInt8) : Option (List UInt8) :=
  if span.start ≤ span.stop ∧ span.stop ≤ input.length then
    some ((input.drop span.start).take span.length)
  else none

end Span

/-- A token of a document. -/
structure Event where
  kind : EventKind
  span : Span
  text : List UInt8
deriving DecidableEq, Repr

namespace Event

/-- The event of a kind that covers a span of the input. -/
def cut (input : List UInt8) (kind : EventKind) (span : Span) : Event :=
  ⟨kind, span, (input.drop span.start).take span.length⟩

/-- The line that shows an event. -/
def describe (event : Event) : String :=
  event.kind.name ++ "@" ++ toString event.span.start ++ ".." ++ toString event.span.stop ++
    " `" ++ Utf8.toText event.text ++ "`"

end Event
end JsonDoc
