import JsonDoc.BuildError
import JsonDoc.ParseError
import JsonDoc.Text.Position

/-!
# Faults

Whatever keeps a document from being read: the grammar, the events, or the file itself.
-/

namespace JsonDoc

/-- Why there is no document. -/
inductive Fault where
  | parse (error : ParseError)
  | build (error : BuildError)
  /-- The file of this name could not be read. -/
  | unreadable (name : String)
deriving DecidableEq, Repr

namespace Fault

/-- The byte offset the fault points at, if it has one. -/
def offset? : Fault → Option Nat
  | parse error => some error.offset
  | build error => error.offset?
  | unreadable _ => none

/-- The line and the column of the fault in its source. -/
def position? (fault : Fault) (source : List UInt8) : Option Position :=
  fault.offset?.map (Position.ofOffset source)

/-- The sentence that tells the fault. -/
def message : Fault → String
  | parse error => error.message
  | build error => error.message
  | unreadable name => "Failed to read " ++ name

end Fault
end JsonDoc
