import JsonDoc.BuildError
import JsonDoc.Byte
import JsonDoc.Literal
import JsonDoc.NumberText
import JsonDoc.Tree.Basic

/-!
# Building trees from events

A builder takes events one at a time. Each container that is open is a frame on its stack; values
go into the innermost one, and inside an object a string is a key when none is waiting for its
value. An event that does not fit is refused, and the builder can be fed on after that.
-/

namespace JsonDoc

/-- A container that is still open. -/
inductive Frame where
  /-- The items so far, the last one first. -/
  | array (reversed : List Tree)
  /-- The members so far, and the key that waits for its value. -/
  | object (members : List (String × Tree)) (pending : Option String)
deriving Repr

namespace Frame

/-- The kind of the container. -/
def container : Frame → Container
  | array _ => .array
  | object .. => .object

end Frame

/-- The state of building one document. -/
structure Builder where
  /-- The open containers, the innermost first. -/
  stack : List Frame
  /-- The document, once it is complete. -/
  root : Option Tree
deriving Repr

namespace Builder

/-- A builder that has seen no event. -/
def empty : Builder := ⟨[], none⟩

/-- The number of open containers. -/
def depth (b : Builder) : Nat := b.stack.length

/-- Whether a whole document has been built. -/
def isComplete (b : Builder) : Bool := b.stack.isEmpty && b.root.isSome

/-- What taking one event comes to. -/
structure Response where
  builder : Builder
  /-- Why the event was refused, if it was. -/
  error : Option BuildError
  /-- The key whose earlier value was replaced, if one was. -/
  replaced : Option String

/-- The event is taken. -/
def accept (b : Builder) : Response := ⟨b, none, none⟩

/-- The event is refused and leaves the given builder. -/
def refuse (b : Builder) (error : BuildError) : Response := ⟨b, some error, none⟩

/-- Puts a finished value into its place. -/
def attach (b : Builder) (value : Tree) (span : Span) : Response :=
  match b.stack with
  | [] =>
    match b.root with
    | some _ => b.refuse (.multipleRoots span)
    | none => accept ⟨[], some value⟩
  | .array reversed :: rest => accept { b with stack := .array (value :: reversed) :: rest }
  | .object members (some key) :: rest =>
    { builder := { b with stack := .object (Members.insert members key value) none :: rest }
      error := none
      replaced := if Members.contains members key then some key else none }
  | .object _ none :: _ => b.refuse (.missingKey span)

/-- Opens a container where a value is expected. -/
def openFrame (b : Builder) (frame : Frame) (span : Span) : Response :=
  match b.stack with
  | [] =>
    match b.root with
    | some _ => b.refuse (.multipleRoots span)
    | none => accept { b with stack := [frame] }
  | .object _ none :: _ => b.refuse (.missingKey span)
  | stack => accept { b with stack := frame :: stack }

/-- Closes the innermost container. One that cannot be closed in this way is dropped. -/
def closeFrame (b : Builder) (container : Container) (span : Span) : Response :=
  match b.stack with
  | [] => b.refuse (.unbalancedEnd span)
  | frame :: rest =>
    let outer := { b with stack := rest }
    match container, frame with
    | .array, .array reversed => outer.attach (.array reversed.reverse) span
    | .object, .object members none => outer.attach (.object members) span
    | .object, .object _ (some key) => outer.refuse (.danglingKey key span)
    | _, frame => outer.refuse (.mismatchedEnd frame.container span)

/-- The content of a string token: what stands between its quotes, or the whole of a bare word. -/
def content (text : List UInt8) : String :=
  match text with
  | first :: more =>
    if first = Byte.quote ∧ more.getLast? = some Byte.quote then Utf8.toText more.dropLast
    else Utf8.toText text
  | [] => ""

/-- Takes a string: a key where an object has none waiting, else a value. -/
def takeString (b : Builder) (content : String) (span : Span) : Response :=
  match b.stack with
  | .object members none :: rest =>
    accept { b with stack := .object members (some content) :: rest }
  | _ => b.attach (.string content) span

/-- Takes one event. -/
def take (b : Builder) (event : Event) : Response :=
  match event.kind with
  | .objectBegin => b.openFrame (.object [] none) event.span
  | .arrayBegin => b.openFrame (.array []) event.span
  | .objectEnd => b.closeFrame .object event.span
  | .arrayEnd => b.closeFrame .array event.span
  | .string => b.takeString (content event.text) event.span
  | .number =>
    let text := Utf8.decode event.text
    match NumberText.value? text with
    | none => b.refuse (.invalidNumber (String.ofList text) event.span)
    | some n => b.attach (.number n) event.span
  | .boolean => b.attach (.boolean (event.text == Literal.true.word)) event.span
  | .null => b.attach .null event.span

/-- The finished document. -/
def finish (b : Builder) : Except BuildError Tree :=
  if b.stack.isEmpty then
    match b.root with
    | some tree => .ok tree
    | none => .error .empty
  else .error (.unterminated b.depth)

/-- Takes events up to the first that is refused. -/
def takeAll (b : Builder) : List Event → Builder × Option BuildError
  | [] => (b, none)
  | event :: events =>
    let response := b.take event
    match response.error with
    | some error => (response.builder, some error)
    | none => response.builder.takeAll events

/-- The document that a sequence of events describes. -/
def build (events : List Event) : Except BuildError Tree :=
  match empty.takeAll events with
  | (_, some error) => .error error
  | (b, none) => b.finish

end Builder
end JsonDoc
