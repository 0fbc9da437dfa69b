import JsonDoc.Proofs.Syntax.Derivation

/-!
# Derivations of the relaxed dialect

`Lexicon.relaxed` adds comments, bare words and more spellings of numbers to standard JSON:

```text
document ::= trivia value ending
trivia   ::= { blank | "#" byte-other-than-line-feed* line-feed }
ending   ::= trivia [ "#" byte-other-than-line-feed* ]
key      ::= string | word
word     ::= [A-Za-z_][A-Za-z0-9_]*
number   ::= [+-]? ( "0" [xX] hex+ | "0" [bB] bin+ | "0" oct+
                   | ("0" | [1-9][0-9]*) ("." [0-9]*)? ([eE] [+-]? [0-9]*)? )
```

A word in the place of a value is a string, unless it is one of the literals.
-/

namespace JsonDoc
namespace Syntax

/-! ## Tokens -/

/-- A fraction, which may have no digits, or nothing. -/
inductive IsOpenFraction : List UInt8 → Prop
  | none : IsOpenFraction []
  | some {digits : List UInt8} :
      (∀ b ∈ digits, Byte.isDigit b) → IsOpenFraction (Byte.dot :: digits)

/-- An exponent, which may have no digits, or nothing. -/
inductive IsOpenExponent : List UInt8 → Prop
  | none : IsOpenExponent []
  | unsigned {mark : UInt8} {digits : List UInt8} :
      Byte.isExponentMark mark → (∀ b ∈ digits, Byte.isDigit b) → IsOpenExponent (mark :: digits)
  | signed {mark sign : UInt8} {digits : List UInt8} :
      Byte.isExponentMark mark → Byte.isSign sign → (∀ b ∈ digits, Byte.isDigit b) →
      IsOpenExponent (mark :: sign :: digits)

theorem IsFraction.isOpen
    {text : List UInt8}
    (h : IsFraction text) :
    IsOpenFraction text := by
  cases h with
  | none =>
      exact .none
  | some digits =>
      exact .some digits.2

theorem IsExponent.isOpen
    {text : List UInt8}
    (h : IsExponent text) :
    IsOpenExponent text := by
  cases h with
  | none =>
      exact .none
  | unsigned isMark digits =>
      exact .unsigned isMark digits.2
  | signed isMark isSign digits =>
      exact .signed isMark isSign digits.2

/-- A relaxed number after its sign: a literal of another base, or a decimal one. -/
inductive IsRelaxedMagnitude : List UInt8 → Prop
  | hexadecimal {mark : UInt8} {digits : List UInt8} :
      Byte.isHexMark mark → digits ≠ [] → (∀ b ∈ digits, Byte.isHexDigit b) →
      IsRelaxedMagnitude (Byte.zero :: mark :: digits)
  | binary {mark : UInt8} {digits : List UInt8} :
      Byte.isBinaryMark mark → digits ≠ [] → (∀ b ∈ digits, Byte.isBinaryDigit b) →
      IsRelaxedMagnitude (Byte.zero :: mark :: digits)
  | octal {digits : List UInt8} :
      digits ≠ [] → (∀ b ∈ digits, Byte.isOctalDigit b) →
      IsRelaxedMagnitude (Byte.zero :: digits)
  | decimal {integer fraction exponent : List UInt8} :
      IsInteger integer → IsOpenFraction fraction → IsOpenExponent exponent →
      IsRelaxedMagnitude (integer ++ (fraction ++ exponent))

/-- A relaxed number. -/
inductive IsRelaxedNumber : List UInt8 → Prop
  | unsigned {magnitude : List UInt8} : IsRelaxedMagnitude magnitude → IsRelaxedNumber magnitude
  | signed {sign : UInt8} {magnitude : List UInt8} :
      Byte.isSign sign → IsRelaxedMagnitude magnitude → IsRelaxedNumber (sign :: magnitude)

/-- A bare word. -/
inductive IsWord : List UInt8 → Prop
  | mk {first : UInt8} {more : List UInt8} :
      Byte.isWordStart first → (∀ b ∈ more, Byte.isWordPart b) → IsWord (first :: more)

/-- The rest of a line. -/
def Line (text : List UInt8) : Prop := ∀ b ∈ text, b ≠ Byte.lineFeed

/-- Blanks, and comments that their line feed closes. -/
inductive Trivia : List UInt8 → Prop
  | nil : Trivia []
  | blank {b : UInt8} {more : List UInt8} : Byte.isBlank b → Trivia more → Trivia (b :: more)
  | comment {line more : List UInt8} :
      Line line → Trivia more → Trivia (Byte.hash :: (line ++ Byte.lineFeed :: more))

/-- Trivia at the end of the input, where the last comment may be open. -/
inductive Ending : List UInt8 → Prop
  | closed {text : List UInt8} : Trivia text → Ending text
  | comment {text line : List UInt8} :
      Trivia text → Line line → Ending (text ++ Byte.hash :: line)

theorem Trivia.append
    {text more : List UInt8}
    (h : Trivia text)
    (k : Trivia more) :
    Trivia (text ++ more) := by
  induction h with
  | nil =>
      exact k
  | blank blank _ ih =>
      exact .blank blank ih
  | comment isLine _ ih =>
      simpa using Trivia.comment isLine ih

theorem Ending.after
    {text more : List UInt8}
    (h : Trivia text)
    (k : Ending more) :
    Ending (text ++ more) := by
  cases k with
  | closed trivia =>
      exact .closed (h.append trivia)
  | @comment before line trivia isLine =>
      rw [← List.append_assoc]
      exact .comment (h.append trivia) isLine

/-- The relaxed tokens that are values. -/
inductive RelaxedScalar : List UInt8 → Tree → Prop
  | literal (l : Literal) : RelaxedScalar l.word (literalTree l)
  | number {text : List UInt8} :
      IsRelaxedNumber text → RelaxedScalar text (.number (numberValue text))
  | string {content : List UInt8} :
      IsContent content → RelaxedScalar (quoted content) (.string (Utf8.toText content))
  | word {text : List UInt8} :
      IsWord text → (∀ l : Literal, text ≠ l.word) →
      RelaxedScalar text (.string (Utf8.toText text))

/-- A relaxed key: a string or a word. -/
inductive RelaxedKey : List UInt8 → String → Prop
  | string {content : List UInt8} :
      IsContent content → RelaxedKey (quoted content) (Utf8.toText content)
  | word {text : List UInt8} : IsWord text → RelaxedKey text (Utf8.toText text)

/-- JSON with comments, bare words and relaxed numbers. -/
def Lexicon.relaxed : Lexicon where
  trivia := Trivia
  ending := Ending
  key := RelaxedKey
  scalar := RelaxedScalar

end Syntax
end JsonDoc
