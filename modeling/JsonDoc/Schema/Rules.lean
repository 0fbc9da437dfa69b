import JsonDoc.Schema.Error

/-!
# Keyword values

Reading the values of keywords out of the members of a schema object. `place` is the pointer to
that object.
-/

namespace JsonDoc

/-- The members of a schema object. -/
abbrev Rules := Members Tree

namespace Rules

/-- The value of a keyword. -/
def find? (rules : Rules) (keyword : Keyword) : Option Tree := rules.get? keyword.name

/-- The type names that schemas may use. -/
def typeNames : List String :=
  ["object", "array", "string", "number", "boolean", "null", "integer", "any"]

/-- The names in an array of strings. -/
def names? (items : List Tree) : Option (List String) := items.mapM Tree.asContent?

/-- The type names of a `type` keyword: one or an array of them, all of them known. -/
def types (place : Pointer) (value : Tree) : Except SchemaError (List String) :=
  let invalid := fun flaw => SchemaError.invalid .type place flaw
  let names : Except SchemaError (List String) := match value with
    | .string name => .ok [name]
    | .array items =>
      match names? items with
      | some names => .ok names
      | none => .error (invalid .expectedTypeNames)
    | _ => .error (invalid .expectedTypeNameOrNames)
  names.bind fun names =>
    match names.find? fun name => !typeNames.contains name with
    | some name => .error (invalid (.unknownType name))
    | none => .ok names

/-- Whether a node has the type of a name. -/
def hasType (node : Tree) (name : String) : Bool :=
  if name = "any" then true
  else if name = "integer" then node.isInteger
  else node.kindName == name

/-- The schemas listed under a keyword. A single schema may stand under `not`. -/
def schemas (keyword : Keyword) (place : Pointer) (value : Tree) :
    Except SchemaError (List Tree) :=
  match value with
  | .array items => .ok items
  | .object members =>
    if keyword = .not then .ok [.object members]
    else .error (.invalid keyword place .expectedSchemas)
  | _ => .error (.invalid keyword place .expectedSchemas)

/-- The finite number of a keyword. -/
def number (rules : Rules) (keyword : Keyword) (place : Pointer) :
    Except SchemaError (Option Binary64) :=
  match rules.find? keyword with
  | none => .ok none
  | some (.number n) =>
    if n.isFinite then .ok (some n) else .error (.invalid keyword place .expectedNumber)
  | some _ => .error (.invalid keyword place .expectedNumber)

/-- The greatest count; larger numbers count as this one. -/
def maxCount : Nat := 0xffffffffffffffff

/-- The non-negative integer of a keyword. -/
def count (rules : Rules) (keyword : Keyword) (place : Pointer) :
    Except SchemaError (Option Nat) :=
  match rules.find? keyword with
  | none => .ok none
  | some (.number n) =>
    if n.isIntegral && Binary64.zero.le n then .ok (some (min n.truncate.toNat maxCount))
    else .error (.invalid keyword place .expectedCount)
  | some _ => .error (.invalid keyword place .expectedCount)

/-- Whether a bound excludes itself. The flag needs its bound beside it. -/
def exclusive (rules : Rules) (keyword bound : Keyword) (hasBound : Bool) (place : Pointer) :
    Except SchemaError Bool :=
  match rules.find? keyword with
  | none => .ok false
  | some value =>
    if !hasBound then .error (.invalid keyword place (.requires bound))
    else
      match value with
      | .boolean flag => .ok flag
      | _ => .error (.invalid keyword place .expectedBoolean)

/-- A bound with its flag. -/
def bound (rules : Rules) (keyword exclusiveKeyword : Keyword) (place : Pointer) :
    Except SchemaError (Option (Binary64 × Bool)) :=
  match rules.number keyword place with
  | .error e => .error e
  | .ok limit =>
    match rules.exclusive exclusiveKeyword keyword limit.isSome place with
    | .error e => .error e
    | .ok exclusive => .ok (limit.map fun limit => (limit, exclusive))

end Rules
end JsonDoc
