import JsonDoc.Text.Utf8

/-!
# Lines and columns

A byte offset is shown to a reader as a line and a column, both counted from one. Columns count
characters of the decoded text before the offset, and a line ends at each line feed.
-/

namespace JsonDoc

/-- A place in a text. -/
structure Position where
  line : Nat
  column : Nat
deriving DecidableEq, Repr

namespace Position

/-- The first place of a text. -/
def first : Position := ⟨1, 1⟩

/-- The place after one more character. -/
def after (p : Position) (c : Char) : Position :=
  if c = '\n' then ⟨p.line + 1, 1⟩ else ⟨p.line, p.column + 1⟩

/-- The place after a text. -/
def afterText (chars : List Char) : Position := chars.foldl after first

/-- The place of a byte offset; an offset past the end counts as the end. -/
def ofOffset (source : List UInt8) (offset : Nat) : Position :=
  afterText (Utf8.decode (source.take offset))

end Position
end JsonDoc
