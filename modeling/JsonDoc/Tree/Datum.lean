import JsonDoc.Tree.Basic

/-!
# JSON data

A `Datum` is a JSON value as other programs hold it: texts have no escapes, and integers stand
apart from other numbers. Trees are made from data and turned into data. `Tree.serialize` is what a
tree tells to a format, `Tree.toDatum` what is kept of that as data.
-/

namespace JsonDoc

/-- A JSON value with decoded texts. -/
inductive Datum where
  | null
  | boolean (value : Bool)
  | integer (value : Int)
  | double (value : Binary64)
  | text (value : String)
  | list (items : List Datum)
  | record (fields : List (String × Datum))
deriving Repr, Inhabited

namespace Tree

mutual

/-- The tree of some data. Texts and keys are escaped, and an integer becomes the nearest double. -/
def ofDatum : Datum → Tree
  | .null => null
  | .boolean value => boolean value
  | .integer value => ofInt value
  | .double value => number value
  | .text value => ofText value
  | .list items => array (ofDatumItems items)
  | .record fields => ofMembers (ofDatumFields fields)

/-- The trees of a list of data. -/
def ofDatumItems : List Datum → List Tree
  | [] => []
  | item :: items => ofDatum item :: ofDatumItems items

/-- The members of the fields of a record. -/
def ofDatumFields : List (String × Datum) → List (String × Tree)
  | [] => []
  | (key, value) :: fields => (Escape.encodeText key, ofDatum value) :: ofDatumFields fields

end

/-- What is told of a number: an integer if it has no fraction and is small enough for integers to
be exact, else a double, whatever its value is. -/
def serializeNumber (n : Binary64) : Datum :=
  if n.isIntegral && decide (n.truncate.natAbs < Binary64.exactIntegerBound) then
    .integer n.truncate
  else .double n

mutual

/-- What a tree tells to a format. Strings and keys are decoded, and the fields of a record are told
in the order in which the members are kept. -/
def serialize : Tree → Datum
  | null => .null
  | boolean value => .boolean value
  | number value => serializeNumber value
  | string content => .text (Escape.decodeText content)
  | array items => .list (serializeItems items)
  | object members => .record (serializeMembers members)

/-- What array items tell, one after another. -/
def serializeItems : List Tree → List Datum
  | [] => []
  | item :: items => serialize item :: serializeItems items

/-- What object members tell, each with its key. -/
def serializeMembers : List (String × Tree) → List (String × Datum)
  | [] => []
  | (key, value) :: members => (Escape.decodeText key, serialize value) :: serializeMembers members

end

/-- The datum of a number: an integer if it has no fraction and is small enough for integers to be
exact, nothing if it is not finite. -/
def numberDatum (n : Binary64) : Datum :=
  if n.isIntegral && decide (n.truncate.natAbs < Binary64.exactIntegerBound) then
    .integer n.truncate
  else if n.isFinite then .double n
  else .null

mutual

/-- The data of a tree. Strings and keys are decoded; of keys that mean the same the last one
counts. -/
def toDatum : Tree → Datum
  | null => .null
  | boolean value => .boolean value
  | number value => numberDatum value
  | string content => .text (Escape.decodeText content)
  | array items => .list (toDatumItems items)
  | object members => .record (Members.ofList (toDatumFields members))

/-- The data of array items. -/
def toDatumItems : List Tree → List Datum
  | [] => []
  | item :: items => toDatum item :: toDatumItems items

/-- The fields of object members. -/
def toDatumFields : List (String × Tree) → List (String × Datum)
  | [] => []
  | (key, value) :: members => (Escape.decodeText key, toDatum value) :: toDatumFields members

end

end Tree
end JsonDoc
