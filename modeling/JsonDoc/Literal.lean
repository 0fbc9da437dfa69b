import JsonDoc.Event

/-!
# Literals

The three words that are values by themselves.
-/

namespace JsonDoc

/-- The words that are values by themselves. -/
inductive Literal where
  | true
  | false
  | null
deriving DecidableEq, Repr

namespace Literal

/-- The bytes of a word. -/
def word : Literal → List UInt8
  | .true => [0x74, 0x72, 0x75, 0x65]
  | .false => [0x66, 0x61, 0x6C, 0x73, 0x65]
  | .null => [0x6E, 0x75, 0x6C, 0x6C]

/-- The kind of event a word yields. -/
def kind : Literal → EventKind
  | .true => .boolean
  | .false => .boolean
  | .null => .null

end Literal
end JsonDoc
