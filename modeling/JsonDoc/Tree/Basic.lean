import JsonDoc.Binary64.Arithmetic
import JsonDoc.Members
import JsonDoc.Text.Escape

/-!
# Document trees

A tree is a document, or a schema, in memory. Strings and keys hold the content of their tokens
as it is written, with the escapes in place.
-/

namespace JsonDoc

/-- A node of a document with everything below it. -/
inductive Tree where
  | null
  | boolean (value : Bool)
  | number (value : Binary64)
  /-- The content between the quotes, escapes not decoded. -/
  | string (content : String)
  | array (items : List Tree)
  | object (members : List (String × Tree))
deriving Repr, Inhabited

namespace Tree

/-! ## Kinds -/

/-- The name of a node's kind, as schemas spell it. -/
def kindName : Tree → String
  | null => "null"
  | boolean _ => "boolean"
  | number _ => "number"
  | string _ => "string"
  | array _ => "array"
  | object _ => "object"

def isNull : Tree → Bool
  | null => true
  | _ => false

def isBoolean : Tree → Bool
  | boolean _ => true
  | _ => false

def isNumber : Tree → Bool
  | number _ => true
  | _ => false

/-- Whether the node is a finite number without a fraction. -/
def isInteger : Tree → Bool
  | number value => value.isIntegral
  | _ => false

def isString : Tree → Bool
  | string _ => true
  | _ => false

def isArray : Tree → Bool
  | array _ => true
  | _ => false

def isObject : Tree → Bool
  | object _ => true
  | _ => false

/-! ## Parts -/

def asBoolean? : Tree → Option Bool
  | boolean value => some value
  | _ => none

def asNumber? : Tree → Option Binary64
  | number value => some value
  | _ => none

/-- The content of a string as it is kept. -/
def asContent? : Tree → Option String
  | string content => some content
  | _ => none

/-- The text that a string means. -/
def asText? (node : Tree) : Option String := node.asContent?.map Escape.decodeText

def asArray? : Tree → Option (List Tree)
  | array items => some items
  | _ => none

def asObject? : Tree → Option (Members Tree)
  | object members => some members
  | _ => none

/-- The number of children of a container; a scalar has none. -/
def size : Tree → Nat
  | array items => items.length
  | object members => members.length
  | _ => 0

/-- The member under a key. -/
def get? (node : Tree) (key : String) : Option Tree := node.asObject?.bind (·.get? key)

/-! ## Making trees -/

/-- The string whose meaning is a text. -/
def ofText (text : String) : Tree := string (Escape.encodeText text)

def ofInt (n : Int) : Tree := number (Binary64.ofInt n)

/-- The tree, or null without one. -/
def ofOption : Option Tree → Tree
  | none => null
  | some node => node

/-- The object with the given keys and values; the last of equal keys counts. -/
def ofMembers (pairs : List (String × Tree)) : Tree := object (Members.ofList pairs)

/-! ## Changing trees -/

/-- Puts a member into an object; there is none without an object. -/
def insert? (node : Tree) (key : String) (value : Tree) : Option Tree :=
  node.asObject?.map fun members => object (members.insert key value)

/-- Replaces a member that is there already. -/
def replace? (node : Tree) (key : String) (value : Tree) : Option Tree :=
  match node with
  | object members =>
    if Members.contains members key then some (object (Members.replace members key value)) else none
  | _ => none

/-- Adds an item to the end of an array. -/
def push? (node : Tree) (item : Tree) : Option Tree :=
  node.asArray?.map fun items => array (items ++ [item])

end Tree
end JsonDoc
