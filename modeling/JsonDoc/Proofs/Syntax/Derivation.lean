import JsonDoc.Byte
import JsonDoc.NumberText
import JsonDoc.Literal
import JsonDoc.Tree.Basic

/-!
# Derivations

The grammar of documents as a set of rules, with the tree that each derivation stands for. It does
not mention reading: texts are lists of bytes, and a rule puts texts together.

A `Lexicon` says what the leaves of a dialect look like. `Lexicon.Value` derives values from them
and `Lexicon.Document` whole documents. `Lexicon.strict` is standard JSON:

```text
document ::= blank value blank
value    ::= array | object | string | number | "true" | "false" | "null"
number   ::= "-"? ("0" | [1-9][0-9]*) ("." [0-9]+)? ([eE] [+-]? [0-9]+)?
string   ::= quote item* quote
item     ::= a byte from 0x20 on other than quote and backslash
           | backslash byte-other-than-u | backslash "u" hex hex hex hex
```
-/

namespace JsonDoc
namespace Syntax

/-- Texts with commas between them. -/
def commaSeparated : List (List UInt8) → List UInt8
  | [] => []
  | [text] => text
  | text :: next :: texts => text ++ Byte.comma :: commaSeparated (next :: texts)

theorem commaSeparated_cons_cons
    (text next : List UInt8)
    (texts : List (List UInt8)) :
    commaSeparated (text :: next :: texts) =
      text ++ Byte.comma :: commaSeparated (next :: texts) := rfl

/-- The leaves of a dialect. -/
structure Lexicon where
  /-- What may stand between two tokens. -/
  trivia : List UInt8 → Prop
  /-- What may stand after the last token. -/
  ending : List UInt8 → Prop
  /-- Tokens of keys, each with the content that it stands for. -/
  key : List UInt8 → String → Prop
  /-- Tokens that are values, each with the value that it stands for. -/
  scalar : List UInt8 → Tree → Prop

/-- An item of a container with what stands around it. -/
structure Padded (α : Type) where
  before : List UInt8
  item : α
  after : List UInt8

namespace Padded

variable {α β : Type}

def text (text : α → List UInt8) (padded : Padded α) : List UInt8 :=
  padded.before ++ (text padded.item ++ padded.after)

def map (f : α → β) (padded : Padded α) : Padded β :=
  ⟨padded.before, f padded.item, padded.after⟩

/-- Items in brackets, with commas between them. -/
def enclosed
    (first : UInt8)
    (text : α → List UInt8)
    (items : List (Padded α))
    (last : UInt8) : List UInt8 :=
  first :: (commaSeparated (items.map (Padded.text text)) ++ [last])

end Padded

/-- The text of a value and the tree that it stands for. -/
structure Spelling where
  text : List UInt8
  tree : Tree

/-- A key with its value, and what stands between them. -/
structure Member where
  key : List UInt8
  content : String
  afterKey : List UInt8
  beforeValue : List UInt8
  value : Spelling

namespace Member

def text (m : Member) : List UInt8 :=
  m.key ++ (m.afterKey ++ Byte.colon :: (m.beforeValue ++ m.value.text))

/-- What a member stands for. -/
def pair (m : Member) : String × Tree := (m.content, m.value.tree)

end Member

namespace Lexicon

/-- What stands around an item is trivia. -/
def Around {α : Type} (lex : Lexicon) (padded : Padded α) : Prop :=
  lex.trivia padded.before ∧ lex.trivia padded.after

/-- A member has a key of the dialect, and what stands between its parts is trivia. -/
structure Keyed (lex : Lexicon) (m : Member) : Prop where
  key : lex.key m.key m.content
  afterKey : lex.trivia m.afterKey
  beforeValue : lex.trivia m.beforeValue

/-- The texts of values, each with the tree that it stands for. Of equal keys in an object the
last one counts. -/
inductive Value (lex : Lexicon) : List UInt8 → Tree → Prop
  | scalar {text : List UInt8} {tree : Tree} :
      lex.scalar text tree → Value lex text tree
  | emptyArray {inside : List UInt8} :
      lex.trivia inside →
      Value lex (Byte.openBracket :: (inside ++ [Byte.closeBracket])) (.array [])
  | array (elements : List (Padded Spelling)) :
      elements ≠ [] →
      (∀ e ∈ elements, lex.Around e) →
      (∀ e ∈ elements, Value lex e.item.text e.item.tree) →
      Value lex (Padded.enclosed Byte.openBracket Spelling.text elements Byte.closeBracket)
        (.array (elements.map (·.item.tree)))
  | emptyObject {inside : List UInt8} :
      lex.trivia inside →
      Value lex (Byte.openBrace :: (inside ++ [Byte.closeBrace])) (.object [])
  | object (members : List (Padded Member)) :
      members ≠ [] →
      (∀ m ∈ members, lex.Around m ∧ lex.Keyed m.item) →
      (∀ m ∈ members, Value lex m.item.value.text m.item.value.tree) →
      Value lex (Padded.enclosed Byte.openBrace Member.text members Byte.closeBrace)
        (.object (Members.ofList (members.map (·.item.pair))))

/-- The texts of documents: one value with trivia around it. -/
inductive Document (lex : Lexicon) : List UInt8 → Tree → Prop
  | mk {before text after : List UInt8} {tree : Tree} :
      lex.trivia before → lex.Value text tree → lex.ending after →
      Document lex (before ++ (text ++ after)) tree

end Lexicon

/-! ## Tokens -/

/-- At least one digit. -/
def Digits (text : List UInt8) : Prop := text ≠ [] ∧ ∀ b ∈ text, Byte.isDigit b

/-- An integer part: a zero, or digits that do not start with one. -/
inductive IsInteger : List UInt8 → Prop
  | zero : IsInteger [Byte.zero]
  | positive {first : UInt8} {more : List UInt8} :
      Byte.isPositiveDigit first → (∀ b ∈ more, Byte.isDigit b) → IsInteger (first :: more)

/-- A fraction or nothing. -/
inductive IsFraction : List UInt8 → Prop
  | none : IsFraction []
  | some {digits : List UInt8} : Digits digits → IsFraction (Byte.dot :: digits)

/-- An exponent or nothing. -/
inductive IsExponent : List UInt8 → Prop
  | none : IsExponent []
  | unsigned {mark : UInt8} {digits : List UInt8} :
      Byte.isExponentMark mark → Digits digits → IsExponent (mark :: digits)
  | signed {mark sign : UInt8} {digits : List UInt8} :
      Byte.isExponentMark mark → Byte.isSign sign → Digits digits →
      IsExponent (mark :: sign :: digits)

/-- A strict number after its sign. -/
inductive IsMagnitude : List UInt8 → Prop
  | mk {integer fraction exponent : List UInt8} :
      IsInteger integer → IsFraction fraction → IsExponent exponent →
      IsMagnitude (integer ++ (fraction ++ exponent))

/-- A strict number. -/
inductive IsNumber : List UInt8 → Prop
  | positive {magnitude : List UInt8} : IsMagnitude magnitude → IsNumber magnitude
  | negative {magnitude : List UInt8} :
      IsMagnitude magnitude → IsNumber (Byte.minus :: magnitude)

/-- What may stand between the quotes of a string. -/
inductive IsContent : List UInt8 → Prop
  | nil : IsContent []
  | plain {b : UInt8} {more : List UInt8} :
      0x20 ≤ b → b ≠ Byte.quote → b ≠ Byte.backslash → IsContent more → IsContent (b :: more)
  | escape {b : UInt8} {more : List UInt8} :
      b ≠ Byte.lowerU → IsContent more → IsContent (Byte.backslash :: b :: more)
  | unicode {a b c d : UInt8} {more : List UInt8} :
      Byte.isHexDigit a → Byte.isHexDigit b → Byte.isHexDigit c → Byte.isHexDigit d →
      IsContent more → IsContent (Byte.backslash :: Byte.lowerU :: a :: b :: c :: d :: more)

/-- Content in its quotes. -/
def quoted
    (content : List UInt8) : List UInt8 :=
  Byte.quote :: (content ++ [Byte.quote])

/-- The number that a token stands for. A text that is no number stands for none, and is given
the value of a NaN here. -/
def numberValue (text : List UInt8) : Binary64 :=
  (NumberText.value? (Utf8.decode text)).getD Binary64.nan

/-- Blanks: spaces, tabs, line feeds and carriage returns. -/
def Blanks (text : List UInt8) : Prop := ∀ b ∈ text, Byte.isBlank b

theorem blanks_nil :
    Blanks [] := by
  simp [Blanks]

theorem blanks_takeWhile
    (bytes : List UInt8) :
    Blanks (bytes.takeWhile Byte.isBlank) :=
  fun b mem => List.all_eq_true.mp List.all_takeWhile b mem

theorem Blanks.append
    {text more : List UInt8}
    (h : Blanks text)
    (k : Blanks more) :
    Blanks (text ++ more) := by
  intro b mem
  rcases List.mem_append.mp mem with mem | mem
  · exact h b mem
  · exact k b mem

/-- The tree of a literal. -/
def literalTree : Literal → Tree
  | .true => .boolean Bool.true
  | .false => .boolean Bool.false
  | .null => .null

/-- The strict tokens that are values. -/
inductive StrictScalar : List UInt8 → Tree → Prop
  | null : StrictScalar Literal.null.word .null
  | true : StrictScalar Literal.true.word (.boolean Bool.true)
  | false : StrictScalar Literal.false.word (.boolean Bool.false)
  | number {text : List UInt8} : IsNumber text → StrictScalar text (.number (numberValue text))
  | string {content : List UInt8} :
      IsContent content → StrictScalar (quoted content) (.string (Utf8.toText content))

/-- A strict key: a string. -/
inductive StrictKey : List UInt8 → String → Prop
  | string {content : List UInt8} :
      IsContent content → StrictKey (quoted content) (Utf8.toText content)

/-- Standard JSON. -/
def Lexicon.strict : Lexicon where
  trivia := Blanks
  ending := Blanks
  key := StrictKey
  scalar := StrictScalar

/-- A value alone is a document. -/
theorem document_of_value
    {text : List UInt8} {tree : Tree}
    (value : Lexicon.strict.Value text tree) :
    Lexicon.strict.Document text tree := by
  have document := Lexicon.Document.mk blanks_nil value blanks_nil
  rwa [List.nil_append, List.append_nil] at document

end Syntax
end JsonDoc
