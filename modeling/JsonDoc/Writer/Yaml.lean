import JsonDoc.Printer.Yaml
import JsonDoc.Writer.Interchange

/-!
# YAML

The other format that trees are written in for other programs. Its printer is told the same data as
that of JSON.
-/

namespace JsonDoc
namespace Tree

/-- The YAML text of a tree, as a printer writes it. -/
def toYaml (tree : Tree) (print : Datum → String := Yaml.print) : String := print tree.serialize

end Tree
end JsonDoc
