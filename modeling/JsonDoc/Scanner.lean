import JsonDoc.Event
import JsonDoc.ParseError

/-!
# Scanner

A scanner is a place in the input together with the number of containers that are open there.
It holds the bytes that are still to be read, so what a rule does depends on those alone.

A `Run` is what reading from a scanner comes to: the events, the scanner where reading stopped,
and the error if there was one. Rules are put together by `Run.andThen`, which keeps the events
of both parts and stops at the first error.
-/

namespace JsonDoc

/-- A place in the input. -/
structure Scanner where
  /-- The bytes from here to the end. -/
  rest : List UInt8
  /-- The number of bytes before this place. -/
  position : Nat
  /-- The number of containers that are open. -/
  depth : Nat
  /-- The greatest number of containers that may be open at once, if there is a limit. -/
  maxDepth : Option Nat
deriving DecidableEq, Repr

namespace Scanner

/-- The start of an input. -/
def start (input : List UInt8) (maxDepth : Option Nat) : Scanner := ⟨input, 0, 0, maxDepth⟩

/-- The length of the whole input. -/
def length (s : Scanner) : Nat := s.position + s.rest.length

def atEnd (s : Scanner) : Bool := s.rest.isEmpty

/-- The next byte. -/
def peek (s : Scanner) : Option UInt8 := s.rest.head?

/-- Goes on by a number of bytes, at most to the end. -/
def advance (s : Scanner) (count : Nat) : Scanner :=
  { s with rest := s.rest.drop count, position := s.position + (s.rest.take count).length }

/-- Goes on by one byte, if there is one. -/
def bump (s : Scanner) : Scanner := s.advance 1

/-- Goes on past one byte if it is of the class. -/
def bumpIf (s : Scanner) (p : UInt8 → Bool) : Scanner :=
  if s.peek.any p then s.bump else s

/-- Goes on past all bytes of the class. -/
def skipWhile (s : Scanner) (p : UInt8 → Bool) : Scanner := s.advance (s.rest.takeWhile p).length

/-- The bytes from one place to a later one. -/
def textTo (s t : Scanner) : List UInt8 := s.rest.take (t.position - s.position)

/-- The event of a kind that covers the bytes from one place to a later one. -/
def eventTo (s t : Scanner) (kind : EventKind) : Event :=
  ⟨kind, ⟨s.position, t.position⟩, s.textTo t⟩

/-- The error of a place where something else was expected: an overrun at the end of the input,
else an unexpected byte. -/
def missing (s : Scanner) (expected : Expectation) : ParseError :=
  if s.atEnd then .overrun s.length expected else .unexpected s.position expected

/-- Counts one more open container. -/
def deeper (s : Scanner) : Scanner := { s with depth := s.depth + 1 }

/-- Counts one open container less. -/
def leave (s : Scanner) : Scanner := { s with depth := s.depth - 1 }

/-- The limit that the depth has passed, if it has. -/
def exceeded? (s : Scanner) : Option Nat := s.maxDepth.filter (· < s.depth)

@[simp] theorem length_advance
    (s : Scanner)
    (count : Nat) :
    (s.advance count).length = s.length := by
  simp only [length, advance, List.length_drop, List.length_take]
  omega

@[simp] theorem depth_advance
    (s : Scanner)
    (count : Nat) :
    (s.advance count).depth = s.depth := rfl

end Scanner

/-- What reading from a place comes to. -/
structure Run where
  /-- The events, in the order of the input. -/
  events : List Event
  /-- Where reading stopped. -/
  stop : Scanner
  /-- The error, if reading failed. -/
  error : Option ParseError
deriving DecidableEq, Repr

/-- A way to read on from a place. -/
abbrev Rule := Scanner → Run

namespace Run

/-- Reading that succeeds without an event. -/
def done (s : Scanner) : Run := ⟨[], s, none⟩

/-- Reading that fails. -/
def fail (s : Scanner) (error : ParseError) : Run := ⟨[], s, some error⟩

/-- Reading that ends in one token, from one place to a later one. -/
def token (kind : EventKind) (s t : Scanner) : Run := ⟨[s.eventTo t kind], t, none⟩

/-- Reads on where the first part stopped, unless it failed. -/
def andThen (run : Run) (next : Rule) : Run :=
  match run.error with
  | some _ => run
  | none =>
    let more := next run.stop
    { more with events := run.events ++ more.events }

/-- Fails because something else was expected at this place. -/
def missing (s : Scanner) (expected : Expectation) : Run := fail s (s.missing expected)

/-- Reads one given byte. -/
def expect (byte : UInt8) (expected : Expectation) : Rule := fun s =>
  if s.peek = some byte then done s.bump else missing s expected

/-- Reads at least one byte of a class. -/
def atLeastOne (p : UInt8 → Bool) (expected : Expectation) : Rule := fun s =>
  if s.peek.any p then done (s.skipWhile p) else missing s expected

/-- Opens one more container, unless that passes the limit. -/
def enter : Rule := fun s =>
  match s.deeper.exceeded? with
  | some limit => fail s.deeper (.tooDeep s.position limit)
  | none => done s.deeper

@[simp] theorem done_andThen
    (s : Scanner)
    (next : Rule) :
    (done s).andThen next = next s := by
  simp [andThen, done]

theorem andThen_assoc
    (run : Run)
    (f g : Rule) :
    (run.andThen f).andThen g = run.andThen fun s => (f s).andThen g := by
  obtain ⟨events, stop, error⟩ := run
  cases error with
  | some e => simp [andThen]
  | none =>
      cases h : (f stop).error <;> simp [andThen, h]

end Run
end JsonDoc
