import JsonDoc.Event

/-!
# Build errors

A sequence of events that is no document is refused by the builder, with the event that does not
fit or with what is still open at the end.
-/

namespace JsonDoc

/-- The two kinds of containers. -/
inductive Container where
  | array
  | object
deriving DecidableEq, Repr

namespace Container

def name : Container → String
  | array => "array"
  | object => "object"

end Container

/-- Why a sequence of events is no document. -/
inductive BuildError where
  /-- A container ends and none is open. -/
  | unbalancedEnd (span : Span)
  /-- A container ends and one of the other kind is open. -/
  | mismatchedEnd (opened : Container) (span : Span)
  /-- A value stands in an object without a key. -/
  | missingKey (span : Span)
  /-- An object ends after a key. -/
  | danglingKey (key : String) (span : Span)
  /-- A second document begins. -/
  | multipleRoots (span : Span)
  /-- The events end inside a number of containers. -/
  | unterminated (depth : Nat)
  /-- There is no value at all. -/
  | empty
  /-- A number token has no value. -/
  | invalidNumber (text : String) (span : Span)
  /-- Something follows the document. -/
  | trailingData (span : Span)
deriving DecidableEq, Repr

namespace BuildError

/-- The bytes the error is about. -/
def span? : BuildError → Option Span
  | unbalancedEnd span => some span
  | mismatchedEnd _ span => some span
  | missingKey span => some span
  | danglingKey _ span => some span
  | multipleRoots span => some span
  | unterminated _ => none
  | empty => none
  | invalidNumber _ span => some span
  | trailingData span => some span

/-- Where the error is. -/
def offset? (e : BuildError) : Option Nat := e.span?.map (·.start)

/-- The sentence that tells the error. -/
def message : BuildError → String
  | unbalancedEnd span =>
    "Container end at offset " ++ toString span.start ++ " with no open container"
  | mismatchedEnd opened span =>
    "Container end at offset " ++ toString span.start ++ " does not match the open " ++ opened.name
  | missingKey span => "Object member at offset " ++ toString span.start ++ " has no key"
  | danglingKey key span =>
    "Object closed at offset " ++ toString span.start ++ " while key `" ++ key ++
      "` was still waiting for a value"
  | multipleRoots span => "A second root value starts at offset " ++ toString span.start
  | unterminated depth =>
    "Event stream ended with " ++ toString depth ++ " unclosed container(s)"
  | empty => "Event stream contained no value"
  | invalidNumber text span =>
    "Number `" ++ text ++ "` at offset " ++ toString span.start ++ " cannot be decoded"
  | trailingData span =>
    "Unexpected data after the root value at offset " ++ toString span.start

end BuildError
end JsonDoc
