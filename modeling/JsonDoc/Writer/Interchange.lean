import JsonDoc.Printer.Json

/-!
# Text for interchange

For other programs a tree is written by the printer of another format, which is told the data of the
tree: their escapes are decoded, and which ones are written is the printer's decision.
-/

namespace JsonDoc
namespace Tree

/-- The JSON text of a tree for other programs, as a printer writes it. -/
def toJson (tree : Tree) (print : Datum → String := Json.print) : String := print tree.serialize

end Tree
end JsonDoc
