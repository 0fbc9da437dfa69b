import JsonDoc.Grammar.Token

/-!
# Values

```text
value  ::= object | array | string | number | "true" | "false" | "null"
array  ::= "[" [ value { "," value } ] "]"
object ::= "{" [ key ":" value { "," key ":" value } ] "}"
```

The rules of containers take the rule for the values inside them. `Grammar.value` ties the knot:
each container takes at least one byte, so the number of bytes bounds the nesting, and each item
of a container takes at least one byte, so it bounds the items too.
-/

namespace JsonDoc
namespace Grammar

/-- The key of an object member. -/
def key : Grammar → Rule
  | strict => fun s => if s.peek = some Byte.quote then string s else .missing s .quotedKey
  | relaxed => fun s =>
    if s.peek = some Byte.quote then string s
    else if s.peek.any Byte.isWordStart then word s
    else .missing s .key

/-- A value whose first byte starts none of the other rules: a bare word in the relaxed grammar. -/
def unknown : Grammar → Rule
  | strict => fun s => .missing s .value
  | relaxed => fun s => if s.peek.any Byte.isWordStart then word s else .missing s .value

/-- Opens a container: one level deeper, past the opening byte, with an event for it. -/
def opening (byte : UInt8) (expected : Expectation) (kind : EventKind) : Rule := fun s =>
  ((Run.enter s).andThen (Run.expect byte expected)).andThen fun t => .token kind s t

/-- Closes a container: past the closing byte, with an event for it, and one level up. -/
def closing (byte : UInt8) (expected : Expectation) (kind : EventKind) : Rule := fun s =>
  ((Run.expect byte expected s).andThen fun t => .token kind s t).andThen fun t => .done t.leave

/-- What separates the items of a container and ends it. -/
structure Separation where
  /-- The closing byte. -/
  close : UInt8
  /-- What is missing where neither a comma nor the closing byte follows an item. -/
  afterItem : Expectation
  /-- What is missing where the closing byte follows a comma. -/
  afterComma : Expectation

/-- What follows an item: a comma and more items by the rule `more`, or the closing byte, which
stays. -/
def afterItem (g : Grammar) (sep : Separation) (more : Rule) : Rule := fun s =>
  let t := g.skip s
  match t.peek with
  | none => .missing t sep.afterItem
  | some b =>
    if b = Byte.comma then
      let u := g.skip t.bump
      if u.peek = some sep.close then .fail u (.unexpected u.position sep.afterComma)
      else more u
    else if b = sep.close then .done t
    else .missing t sep.afterItem

/-- Items with commas between them, up to the closing byte, and no more than `bound` commas. -/
def items (g : Grammar) (sep : Separation) (item : Rule) : Nat → Rule
  | 0 => fun s => (item s).andThen (g.afterItem sep fun t => .missing t sep.afterItem)
  | bound + 1 => fun s => (item s).andThen (g.afterItem sep (items g sep item bound))

/-- No items, or some with commas between them, up to the closing byte. -/
def itemsOrNone (g : Grammar) (sep : Separation) (item : Rule) : Rule := fun s =>
  let t := g.skip s
  if t.peek = some sep.close then .done t else g.items sep item t.rest.length t

/-- The separation of array elements. -/
def elementSeparation : Separation := ⟨Byte.closeBracket, .commaOrBracket, .valueAfterComma⟩

/-- The separation of object members. -/
def memberSeparation : Separation := ⟨Byte.closeBrace, .commaOrBrace, .keyAfterComma⟩

/-- A key, a colon and a value. -/
def member (g : Grammar) (value : Rule) : Rule := fun s =>
  (g.key s).andThen fun t =>
    (Run.expect Byte.colon .colonAfterKey (g.skip t)).andThen fun u => value (g.skip u)

/-- An array of values. -/
def arrayOf (g : Grammar) (value : Rule) : Rule := fun s =>
  (opening Byte.openBracket .openingBracket .arrayBegin s).andThen fun t =>
    (g.itemsOrNone elementSeparation value t).andThen
      (closing Byte.closeBracket .closingBracket .arrayEnd)

/-- An object of members. -/
def objectOf (g : Grammar) (value : Rule) : Rule := fun s =>
  (opening Byte.openBrace .openingBrace .objectBegin s).andThen fun t =>
    (g.itemsOrNone memberSeparation (g.member value) t).andThen
      (closing Byte.closeBrace .closingBrace .objectEnd)

/-- The kinds of values, as the first byte tells them apart. -/
inductive Leading where
  | number
  | string
  | literal (l : Literal)
  | array
  | object
  | other
deriving DecidableEq, Repr

/-- The kind of value that a byte leads. -/
def Leading.ofByte (b : UInt8) : Leading :=
  if Byte.isSign b || Byte.isDigit b then number
  else if b = Byte.quote then string
  else if b = Byte.lowerT then literal .true
  else if b = Byte.lowerF then literal .false
  else if b = Byte.lowerN then literal .null
  else if b = Byte.openBracket then array
  else if b = Byte.openBrace then object
  else other

/-- A value whose containers hold values by the rule `value`; the first byte decides its kind. -/
def valueOf (g : Grammar) (value : Rule) : Rule := fun s =>
  match s.peek with
  | none => .missing s .value
  | some b =>
    match Leading.ofByte b with
    | .number => g.number s
    | .string => string s
    | .literal l => g.literal l s
    | .array => g.arrayOf value s
    | .object => g.objectOf value s
    | .other => g.unknown s

/-- A value with at most `levels` levels of containers inside it. -/
def nested (g : Grammar) : Nat → Rule
  | 0 => g.valueOf fun s => .missing s .value
  | levels + 1 => g.valueOf (g.nested levels)

/-- A value. -/
def value (g : Grammar) : Rule := fun s => g.nested s.rest.length s

/-- An array. -/
def array (g : Grammar) : Rule := fun s => g.arrayOf g.value s

/-- An object. -/
def object (g : Grammar) : Rule := fun s => g.objectOf g.value s

/-- One value from the front of an input, with what means nothing around it. -/
def read (g : Grammar) (maxDepth : Option Nat) (input : List UInt8) : Run :=
  (g.value (g.skip (Scanner.start input maxDepth))).andThen fun s => .done (g.skip s)

end Grammar
end JsonDoc
