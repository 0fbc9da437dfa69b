import JsonDoc.Builder
import JsonDoc.Fault
import JsonDoc.Grammar.Value
import JsonDoc.Log
import JsonDoc.Options

/-!
# Reading documents

A document is read in two steps: the grammar turns bytes into events, and the builder turns events
into a tree.
-/

namespace JsonDoc

/-- A document with the name it goes by. -/
structure Document where
  name : String
  root : Tree
deriving Repr

namespace Document

/-- Reads one value from the front of an input; with it comes the offset at which the next one
may start. -/
def readFront (g : Grammar) (options : ParserOptions) (input : List UInt8) :
    Except Fault (Tree × Nat) :=
  let run := g.read options.maxDepth input
  match run.error with
  | some error => .error (.parse error)
  | none =>
    match Builder.build run.events with
    | .error error => .error (.build error)
    | .ok tree => .ok (tree, run.stop.position)

/-- Reads an input that holds exactly one value. -/
def readTree (g : Grammar) (options : ParserOptions) (input : List UInt8) : Except Fault Tree :=
  match readFront g options input with
  | .error fault => .error fault
  | .ok (tree, stop) =>
    if stop < input.length then .error (.build (.trailingData ⟨stop, input.length⟩))
    else .ok tree

/-- Reads a named document. -/
def read (name : String) (g : Grammar) (options : ParserOptions) (input : List UInt8) :
    Except Fault Document :=
  (readTree g options input).map fun root => ⟨name, root⟩

/-- Reads a named file from its bytes; there are none if the file cannot be read. -/
def ofFile (name : String) (g : Grammar) : Option (List UInt8) → Except Fault Document
  | none => .error (.unreadable name)
  | some bytes => read name g {} bytes

/-- Reads a value and then at most `bound` more, up to the end of the input or the first fault. Each
value comes with the length of what it took, and a fault with the rest of the input that has it. -/
def readUpTo (g : Grammar) (options : ParserOptions) (bound : Nat) (input : List UInt8) :
    List (Tree × Nat) × Option (Fault × List UInt8) :=
  match readFront g options input with
  | .error fault => ([], some (fault, input))
  | .ok (tree, stop) =>
    let rest := input.drop stop
    match bound with
    | 0 => ([(tree, stop)], none)
    | bound + 1 =>
      if rest.isEmpty then ([(tree, stop)], none)
      else
        let (more, fault) := readUpTo g options bound rest
        ((tree, stop) :: more, fault)

/-- Reads the values of an input one after another. Each takes at least one byte, so their number
is bounded by the length of the input. -/
def readAll (g : Grammar) (options : ParserOptions) (input : List UInt8) :
    List (Tree × Nat) × Option (Fault × List UInt8) :=
  readUpTo g options input.length input

/-! ## Log -/

/-- The records of a builder that takes events up to the first that is refused. -/
def buildLog (b : Builder) : List Event → List LogRecord
  | [] => []
  | event :: events =>
    let response := b.take event
    let seen : LogRecord := ⟨.trace, "builder event " ++ event.describe⟩
    let replaced : List LogRecord := match response.replaced with
      | none => []
      | some key =>
        [⟨.warn, "duplicate object key `" ++ key ++ "` at offset " ++
          toString event.span.start ++ "; last value wins"⟩]
    let more := match response.error with
      | some _ => []
      | none => buildLog response.builder events
    seen :: (replaced ++ more)

/-- The records of reading a document. -/
def readLog (g : Grammar) (options : ParserOptions) (input : List UInt8) : List LogRecord :=
  let run := g.read options.maxDepth input
  let consumed : List LogRecord :=
    if run.error.isSome then []
    else
      [⟨.trace, g.name ++ " grammar consumed " ++ toString run.stop.position ++ " of " ++
        toString input.length ++ " bytes"⟩]
  buildLog .empty run.events ++ consumed

end Document
end JsonDoc
