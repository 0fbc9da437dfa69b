/-!
# Schema keywords

The members of a schema object that mean something to the validator.
-/

namespace JsonDoc

/-- A keyword, or the schema itself. -/
inductive Keyword where
  /-- A schema as a whole. -/
  | schema
  | enumeration
  | type
  | allOf
  | anyOf
  | oneOf
  | not
  | properties
  | required
  | minProperties
  | maxProperties
  | items
  | additionalItems
  | minItems
  | maxItems
  | uniqueItems
  | minLength
  | maxLength
  | pattern
  | multipleOf
  | maximum
  | exclusiveMaximum
  | minimum
  | exclusiveMinimum
  | default
  | patternProperties
  | additionalProperties
  | dependencies
deriving DecidableEq, Repr

namespace Keyword

/-- The member of a schema object that holds the keyword. -/
def name : Keyword → String
  | schema => "schema"
  | enumeration => "enum"
  | type => "type"
  | allOf => "allOf"
  | anyOf => "anyOf"
  | oneOf => "oneOf"
  | not => "not"
  | properties => "properties"
  | required => "required"
  | minProperties => "minProperties"
  | maxProperties => "maxProperties"
  | items => "items"
  | additionalItems => "additionalItems"
  | minItems => "minItems"
  | maxItems => "maxItems"
  | uniqueItems => "uniqueItems"
  | minLength => "minLength"
  | maxLength => "maxLength"
  | pattern => "pattern"
  | multipleOf => "multipleOf"
  | maximum => "maximum"
  | exclusiveMaximum => "exclusiveMaximum"
  | minimum => "minimum"
  | exclusiveMinimum => "exclusiveMinimum"
  | default => "default"
  | patternProperties => "patternProperties"
  | additionalProperties => "additionalProperties"
  | dependencies => "dependencies"

/-- The object keywords that are known and cannot be evaluated. -/
def unsupported : List Keyword := [patternProperties, additionalProperties, dependencies]

end Keyword
end JsonDoc
