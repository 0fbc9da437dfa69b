/-!
# Lines of a text
-/

namespace JsonDoc
namespace Lines

/-- The lines of a text; a line feed at the end does not begin another one. -/
def ofText : List Char → List (List Char)
  | [] => []
  | c :: rest =>
    if c = '\n' then [] :: ofText rest
    else
      match ofText rest with
      | [] => [[c]]
      | line :: more => (c :: line) :: more

end Lines
end JsonDoc
