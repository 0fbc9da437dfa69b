import JsonDoc.Tree.Basic

/-!
# Pointers

A pointer names a node by the keys and indices on the way to it. Its text has a slash before each
of them; a tilde inside a key is written `~0` and a slash `~1`.
-/

namespace JsonDoc

/-- The way from a node to one below it. -/
structure Pointer where
  tokens : List String
deriving DecidableEq, Repr

namespace Pointer

/-- The pointer to the node itself. -/
def root : Pointer := ⟨[]⟩

/-- The pointer one key further down. -/
def child (pointer : Pointer) (key : String) : Pointer := ⟨pointer.tokens ++ [key]⟩

/-- The pointer one index further down. -/
def item (pointer : Pointer) (index : Nat) : Pointer := pointer.child (toString index)

/-- A key as it stands in the text of a pointer. -/
def escape (key : List Char) : List Char :=
  key.flatMap fun c => if c = '~' then ['~', '0'] else if c = '/' then ['~', '1'] else [c]

/-- The key that a part of a pointer's text stands for. -/
def unescape : List Char → List Char
  | [] => []
  | '~' :: '0' :: rest => '~' :: unescape rest
  | '~' :: '1' :: rest => '/' :: unescape rest
  | c :: rest => c :: unescape rest

/-- The text of a pointer, empty for the node itself. -/
def text (pointer : Pointer) : String :=
  String.ofList (pointer.tokens.flatMap fun token => '/' :: escape token.toList)

/-- The parts of a text between slashes; a text without a slash is one part. -/
def parts : List Char → List (List Char)
  | [] => [[]]
  | c :: rest =>
    if c = '/' then [] :: parts rest
    else
      match parts rest with
      | [] => [[c]]
      | part :: more => (c :: part) :: more

/-- The pointer of a text, which is empty or starts with a slash. -/
def ofText? (text : String) : Option Pointer :=
  match text.toList with
  | [] => some root
  | c :: rest =>
    if c = '/' then some ⟨(parts rest).map fun part => String.ofList (unescape part)⟩ else none

/-- The array index a token spells: decimal digits, with an optional plus sign. -/
def index? (token : String) : Option Nat :=
  let digits := match token.toList with
    | '+' :: digits => digits
    | digits => digits
  if !digits.isEmpty && digits.all Char.isDigit then
    some (Nat.ofDigitChars 10 digits 0)
  else none

end Pointer

namespace Tree

/-- The child that a token names. -/
def child? (node : Tree) (token : String) : Option Tree :=
  match node with
  | object members => Members.get? members token
  | array items => (Pointer.index? token).bind (items[·]?)
  | _ => none

/-- The node a pointer leads to. -/
def at? (node : Tree) (pointer : Pointer) : Option Tree :=
  pointer.tokens.foldlM child? node

/-- The node that the text of a pointer leads to. -/
def atText? (node : Tree) (text : String) : Option Tree :=
  (Pointer.ofText? text).bind node.at?

end Tree
end JsonDoc
