/-!
# Ranges of characters

A property of characters is a list of ranges of code points, in increasing order.
-/

namespace JsonDoc

/-- Ranges of code points, both ends included, in increasing order. -/
abbrev CharacterRanges := List (Nat × Nat)

namespace CharacterRanges

/-- Whether a code point lies in one of the ranges. -/
def contains : CharacterRanges → Nat → Bool
  | [], _ => false
  | (first, last) :: rest, code =>
    if code < first then false else decide (code ≤ last) || contains rest code

end CharacterRanges
end JsonDoc
