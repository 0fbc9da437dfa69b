import JsonDoc.Schema.Keyword
import JsonDoc.Tree.Pointer

/-!
# Schema errors

A schema that cannot be evaluated is an error, which is something other than a document that does
not conform.
-/

namespace JsonDoc

/-- What is wrong with the value of a keyword. -/
inductive SchemaFlaw where
  /-- A schema is of this kind and not an object. -/
  | notAnObject (kind : String)
  | expectedArray
  | expectedSchemas
  | expectedSchemaOrSchemas
  | expectedObject
  | expectedNames
  | expectedTypeNames
  | expectedTypeNameOrNames
  | unknownType (name : String)
  | expectedBoolean
  | expectedString
  | expectedNumber
  | expectedCount
  | notPositive
  /-- The keyword needs another one beside it. -/
  | requires (keyword : Keyword)
  /-- The text is not a pattern. -/
  | malformedPattern
deriving DecidableEq, Repr

namespace SchemaFlaw

/-- The words for a flaw. -/
def text : SchemaFlaw → String
  | notAnObject kind => "expected an object, found " ++ kind
  | expectedArray => "expected an array"
  | expectedSchemas => "expected an array of schemas"
  | expectedSchemaOrSchemas => "expected a schema or an array of schemas"
  | expectedObject => "expected an object"
  | expectedNames => "expected an array of names"
  | expectedTypeNames => "expected an array of type names"
  | expectedTypeNameOrNames => "expected a type name or an array of type names"
  | unknownType name => "unknown type name `" ++ name ++ "`"
  | expectedBoolean => "expected a boolean"
  | expectedString => "expected a string"
  | expectedNumber => "expected a number"
  | expectedCount => "expected a non-negative integer"
  | notPositive => "divisor must be strictly positive"
  | requires keyword => "requires `" ++ keyword.name ++ "` in the same schema"
  | malformedPattern => "malformed pattern"

end SchemaFlaw

/-- Why a schema cannot be evaluated. The place is the pointer from the schema's root to the
object that holds the keyword; for a nesting that is too deep it is the pointer into the data. -/
inductive SchemaError where
  | unsupported (keyword : Keyword) (place : Pointer)
  | invalid (keyword : Keyword) (place : Pointer) (flaw : SchemaFlaw)
  | tooDeep (limit : Nat) (place : Pointer)
deriving DecidableEq, Repr

namespace SchemaError

/-- The keyword that cannot be evaluated. -/
def keyword? : SchemaError → Option Keyword
  | unsupported keyword _ => some keyword
  | invalid keyword _ _ => some keyword
  | tooDeep .. => none

/-- The text of the place; places in a schema start with a hash. -/
def path : SchemaError → String
  | unsupported _ place => "#" ++ place.text
  | invalid _ place _ => "#" ++ place.text
  | tooDeep _ place => place.text

/-- The sentence that tells the error. -/
def message (e : SchemaError) : String :=
  match e with
  | unsupported keyword _ =>
    "Schema keyword `" ++ keyword.name ++ "` at `" ++ e.path ++ "` is not implemented"
  | invalid keyword _ flaw =>
    "Invalid schema keyword `" ++ keyword.name ++ "` at `" ++ e.path ++ "`: " ++ flaw.text
  | tooDeep limit _ =>
    "Validation nesting exceeds the configured limit of " ++ toString limit ++ " at `" ++
      e.path ++ "`"

end SchemaError
end JsonDoc
