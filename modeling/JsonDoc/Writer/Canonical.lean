import JsonDoc.Writer.Basic

/-!
# Canonical text

The canonical text of a tree has strings exactly as they are kept. A number that is not finite has
no JSON text and is written as `null`.
-/

namespace JsonDoc
namespace Writer

/-- Numbers have the fewest digits, of two equally near texts the larger one, a fraction even if
it is zero, and an exponent below 1e-4 and from 1e16 on. -/
def canonicalLayout : Decimal.Layout where
  tie := .up
  positional := some (-4, 15)
  fraction := true
  exponentSign := ""
  infinity := "null"
  negativeInfinity := "null"
  nan := "null"

/-- Integers of fewer than 16 digits have no fraction. -/
def canonicalNumber : Binary64 → String := integerOr (Decimal.placeValue 15) canonicalLayout

/-- Numbers as above, and strings as they are kept. -/
def canonical : Style := ⟨canonicalNumber, id⟩

end Writer

namespace Tree

/-- The canonical text of a tree. -/
def write (tree : Tree) (options : WriterOptions) : String :=
  Writer.node Writer.canonical options.indent 0 tree

/-- The canonical text on one line. -/
def compact (tree : Tree) : String := tree.write .compact

end Tree
end JsonDoc
