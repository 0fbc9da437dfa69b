import JsonDoc.Schema.Keyword
import JsonDoc.Tree.Pointer
import JsonDoc.Writer.Canonical

/-!
# Violations

A violation says which node of a document breaks which keyword of its schema, and how.
-/

namespace JsonDoc

/-- How a node breaks a keyword. -/
inductive Breach where
  | notEnumerated (found : Tree)
  | wrongType (names : List String) (found : String)
  | notAll
  | notAny
  | notOne
  | moreThanOne
  | forbidden (index : Nat)
  | missing (name : String)
  | tooFewProperties (count least : Nat)
  | tooManyProperties (count most : Nat)
  | extraItems (count allowed : Nat)
  | ungovernedItems
  | tooFewItems (count least : Nat)
  | tooManyItems (count most : Nat)
  | equalItems (first second : Nat)
  | tooShort (length least : Nat)
  | tooLong (length most : Nat)
  | unmatched (pattern : String)
  | notMultiple (number divisor : Binary64)
  | aboveMaximum (number bound : Binary64) (exclusive : Bool)
  | belowMinimum (number bound : Binary64) (exclusive : Bool)
deriving Repr

namespace Breach

/-- Numbers in messages have no exponent, and no fraction unless they need one. -/
def numberLayout : Decimal.Layout where
  tie := .up
  positional := none
  fraction := false
  exponentSign := ""
  infinity := "inf"
  negativeInfinity := "-inf"
  nan := "NaN"

/-- The text of a number in a message. -/
def number (n : Binary64) : String := n.write numberLayout

/-- What a message calls a node: the kind of a container, the text of a scalar. -/
def describe : Tree → String
  | .array _ => "array"
  | .object _ => "object"
  | scalar => scalar.compact

/-- The keyword that is broken. -/
def keyword : Breach → Keyword
  | notEnumerated _ => .enumeration
  | wrongType .. => .type
  | notAll => .allOf
  | notAny => .anyOf
  | notOne => .oneOf
  | moreThanOne => .oneOf
  | forbidden _ => .not
  | missing _ => .required
  | tooFewProperties .. => .minProperties
  | tooManyProperties .. => .maxProperties
  | extraItems .. => .additionalItems
  | ungovernedItems => .additionalItems
  | tooFewItems .. => .minItems
  | tooManyItems .. => .maxItems
  | equalItems .. => .uniqueItems
  | tooShort .. => .minLength
  | tooLong .. => .maxLength
  | unmatched _ => .pattern
  | notMultiple .. => .multipleOf
  | aboveMaximum .. => .maximum
  | belowMinimum .. => .minimum

/-- The sentence that tells the breach. -/
def message : Breach → String
  | notEnumerated found => describe found ++ " is not one of the enumerated values"
  | wrongType names found => "expected " ++ " or ".intercalate names ++ ", found " ++ found
  | notAll => "does not match every allOf schema"
  | notAny => "matches none of the anyOf schemas"
  | notOne => "matches none of the oneOf schemas"
  | moreThanOne => "matches more than one oneOf schema"
  | forbidden index => "matches schema " ++ toString index ++ " listed under not"
  | missing name => "missing required property `" ++ name ++ "`"
  | tooFewProperties count least =>
    "has " ++ toString count ++ " properties, at least " ++ toString least ++ " required"
  | tooManyProperties count most =>
    "has " ++ toString count ++ " properties, at most " ++ toString most ++ " allowed"
  | extraItems count allowed =>
    "has " ++ toString count ++ " items, at most " ++ toString allowed ++ " allowed by items"
  | ungovernedItems => "remaining items are governed by neither a boolean nor a schema"
  | tooFewItems count least =>
    "has " ++ toString count ++ " items, at least " ++ toString least ++ " required"
  | tooManyItems count most =>
    "has " ++ toString count ++ " items, at most " ++ toString most ++ " allowed"
  | equalItems first second =>
    "items " ++ toString first ++ " and " ++ toString second ++ " are equal"
  | tooShort length least =>
    "is " ++ toString length ++ " bytes, at least " ++ toString least ++ " required"
  | tooLong length most =>
    "is " ++ toString length ++ " bytes, at most " ++ toString most ++ " allowed"
  | unmatched pattern => "does not match pattern `" ++ pattern ++ "`"
  | notMultiple n divisor => number n ++ " is not a multiple of " ++ number divisor
  | aboveMaximum n bound exclusive =>
    number n ++ " is not " ++ (if exclusive then "less than " else "at most ") ++ number bound
  | belowMinimum n bound exclusive =>
    number n ++ " is not " ++ (if exclusive then "greater than " else "at least ") ++ number bound

end Breach

/-- A node of a document that breaks a keyword. -/
structure Violation where
  /-- The way from the document's root to the node. -/
  place : Pointer
  breach : Breach
deriving Repr

namespace Violation

/-- The line that shows a violation. -/
def describe (v : Violation) : String :=
  (if v.place.text.isEmpty then "(root)" else v.place.text) ++ ": " ++ v.breach.message ++
    " (" ++ v.breach.keyword.name ++ ")"

end Violation
end JsonDoc
