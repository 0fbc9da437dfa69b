import JsonDoc.Options
import JsonDoc.Pattern.Engine
import JsonDoc.Schema.Check
import JsonDoc.Schema.Rules
import JsonDoc.Tree.Equality

/-!
# Walking data and schema together

`Schema.level` is the check of one schema object. It takes the check for the schemas below it, so
everything about one level can be said without recursion. `Schema.walk` ties the knot and counts
the levels.

The keywords for nodes of all kinds come first. Only a node that passes them is looked at by the
keywords for its kind. What patterns mean is left to an engine.
-/

namespace JsonDoc
namespace Schema

/-- The check of a node by a schema: with the schema come the pointer to the node and the pointer
to the schema. -/
abbrev Walk := Tree → Pointer → Pointer → Check Tree

/-! ## Keywords for all kinds -/

/-- Some value of an array equals the node. -/
def enumerated (value : Tree) (path place : Pointer) : Check Tree := fun node =>
  match value with
  | .array options =>
    Check.demand (options.any (·.approxEq node)) path (.notEnumerated node) node
  | _ => Check.raise (.invalid .enumeration place .expectedArray) node

/-- The node has one of the types. -/
def typed (value : Tree) (path place : Pointer) : Check Tree := fun node =>
  match Rules.types place value with
  | .error e => Check.raise e node
  | .ok names =>
    Check.demand (names.any (Rules.hasType node)) path (.wrongType names node.kindName) node

/-- The checks of the schemas listed under a keyword. -/
def branches (walk : Walk) (keyword : Keyword) (schemas : List Tree) (path place : Pointer) :
    List (Check Tree) :=
  schemas.mapIdx fun index schema => walk schema path ((place.child keyword.name).item index)

/-- The node passes every branch. One more violation follows those of the branches. -/
def passesAll (collectAll : Bool) (path : Pointer) (checks : List (Check Tree)) : Check Tree :=
  fun node =>
    let outcome := Check.all collectAll checks node
    match outcome.verdict with
    | .ok false => { outcome with violations := outcome.violations ++ [⟨path, .notAll⟩] }
    | _ => outcome

/-- The node passes some branch. -/
def passesAny (path : Pointer) (checks : List (Check Tree)) : Check Tree := fun node =>
  let (found, filled) := Check.firstPassed node 0 checks
  let outcome := match found with
    | .error e => Check.raise e node
    | .ok (some _) => Check.pass node
    | .ok none => Check.violate path .notAny node
  { outcome with filled := filled }

/-- The node passes exactly one branch. -/
def passesOne (path : Pointer) (checks : List (Check Tree)) : Check Tree := fun node =>
  let (count, filled) := Check.countPassed node 0 checks
  let outcome := match count with
    | .error e => Check.raise e node
    | .ok 0 => Check.violate path .notOne node
    | .ok 1 => Check.pass node
    | .ok _ => Check.violate path .moreThanOne node
  { outcome with filled := filled }

/-- The node passes no branch. -/
def passesNone (path : Pointer) (checks : List (Check Tree)) : Check Tree := fun node =>
  let (found, filled) := Check.firstPassed node 0 checks
  let outcome := match found with
    | .error e => Check.raise e node
    | .ok (some index) => Check.violate path (.forbidden index) node
    | .ok none => Check.pass node
  { outcome with filled := filled }

/-- A keyword that lists schemas. -/
def combined (walk : Walk) (rules : Rules) (path place : Pointer) (keyword : Keyword)
    (combine : List (Check Tree) → Check Tree) : Check Tree :=
  match rules.find? keyword with
  | none => Check.pass
  | some value =>
    match Rules.schemas keyword place value with
    | .error e => Check.raise e
    | .ok schemas => combine (branches walk keyword schemas path place)

/-- The keywords for nodes of all kinds, in order. -/
def generalChecks (collectAll : Bool) (walk : Walk) (rules : Rules) (path place : Pointer) :
    List (Check Tree) :=
  [match rules.find? .enumeration with
    | none => Check.pass
    | some value => enumerated value path place,
   match rules.find? .type with
    | none => Check.pass
    | some value => typed value path place,
   combined walk rules path place .allOf (passesAll collectAll path),
   combined walk rules path place .anyOf (passesAny path),
   combined walk rules path place .oneOf (passesOne path),
   combined walk rules path place .not (passesNone path)]

/-! ## Objects -/

/-- The members with a missing one filled in from the default of its schema, and where. -/
def fillMember (key : String) (schema : Tree) (path : Pointer) (members : Members Tree) :
    Members Tree × List Pointer :=
  if members.contains key then (members, [])
  else
    match schema.get? Keyword.default.name with
    | none => (members, [])
    | some value => (members.insert key value, [path.child key])

/-- The member under a key, filled in if it is missing, conforms to a schema. A member that is
still missing needs no check. -/
def property (walk : Walk) (key : String) (schema : Tree) (path place : Pointer) :
    Check (Members Tree) := fun members =>
  let (members, filled) := fillMember key schema path members
  match members.get? key with
  | none => Check.pass members
  | some child =>
    let below := (place.child Keyword.properties.name).child key
    let outcome :=
      (walk schema (path.child key) below child).map fun value => members.replace key value
    { outcome with filled := filled ++ outcome.filled }

/-- Every listed property. -/
def properties (collectAll : Bool) (walk : Walk) (rules : Rules) (path place : Pointer) :
    Check (Members Tree) :=
  match rules.find? .properties with
  | none => Check.pass
  | some (.object schemas) =>
    Check.all collectAll (schemas.map fun (key, schema) => property walk key schema path place)
  | some _ => Check.raise (.invalid .properties place .expectedObject)

/-- One name of a `required` list. -/
def requiredName (path place : Pointer) (value : Tree) : Check (Members Tree) := fun members =>
  match value with
  | .string name => Check.demand (members.contains name) path (.missing name) members
  | _ => Check.raise (.invalid .required place .expectedNames) members

/-- Every required name has a member. -/
def required (collectAll : Bool) (rules : Rules) (path place : Pointer) : Check (Members Tree) :=
  match rules.find? .required with
  | none => Check.pass
  | some (.array names) => Check.all collectAll (names.map (requiredName path place))
  | some _ => Check.raise (.invalid .required place .expectedNames)

/-- The keywords for objects. -/
def objectCheck (collectAll : Bool) (walk : Walk) (rules : Rules) (path place : Pointer) :
    Check (Members Tree) :=
  match Keyword.unsupported.find? fun keyword => (rules.find? keyword).isSome with
  | some keyword => Check.raise (.unsupported keyword place)
  | none =>
    Check.all collectAll
      [properties collectAll walk rules path place,
       required collectAll rules path place,
       Check.ofKeyword (rules.count .minProperties place) fun least members =>
        Check.demand (decide (least ≤ members.length)) path
          (.tooFewProperties members.length least) members,
       Check.ofKeyword (rules.count .maxProperties place) fun most members =>
        Check.demand (decide (members.length ≤ most)) path
          (.tooManyProperties members.length most) members]

/-! ## Arrays -/

/-- The items after those that have a schema of their own. -/
def extraItems (collectAll : Bool) (walk : Walk) (rules : Rules) (governed : Nat)
    (path place : Pointer) : Check (List Tree) := fun items =>
  if items.length ≤ governed then Check.pass items
  else
    match rules.find? .additionalItems with
    | none => Check.pass items
    | some (.boolean true) => Check.pass items
    | some (.boolean false) => Check.violate path (.extraItems items.length governed) items
    | some (.object schema) =>
      (Check.eachItem collectAll
        (fun index => walk (.object schema) (path.item index)
          (place.child Keyword.additionalItems.name))
        governed (items.drop governed)).map (items.take governed ++ ·)
    | some _ => Check.violate path .ungovernedItems items

/-- The items with a schema of their own. -/
def governedItems (collectAll : Bool) (walk : Walk) (schemas : List Tree) (path place : Pointer) :
    Check (List Tree) := fun items =>
  (Check.eachItem collectAll
    (fun index =>
      match schemas[index]? with
      | none => Check.pass
      | some schema => walk schema (path.item index)
        ((place.child Keyword.items.name).item index))
    0 (items.take schemas.length)).map (· ++ items.drop schemas.length)

/-- Items: one schema for all, or one for each of the first. -/
def itemsCheck (collectAll : Bool) (walk : Walk) (rules : Rules) (path place : Pointer) :
    Check (List Tree) :=
  match rules.find? .items with
  | none => Check.pass
  | some (.object schema) =>
    Check.eachItem collectAll
      (fun index => walk (.object schema) (path.item index) (place.child Keyword.items.name)) 0
  | some (.array schemas) =>
    Check.all collectAll
      [governedItems collectAll walk schemas path place,
       extraItems collectAll walk rules schemas.length path place]
  | some _ => Check.raise (.invalid .items place .expectedSchemaOrSchemas)

/-- The index of the first item that equals the given one, counted from `index`. -/
def equalIndex? (item : Tree) (index : Nat) : List Tree → Option Nat
  | [] => none
  | other :: items =>
    if item.approxEq other then some index else equalIndex? item (index + 1) items

/-- The first two equal items, counted from `index`: the first index is as small as can be, and
then the second is. -/
def duplicate? (index : Nat) : List Tree → Option (Nat × Nat)
  | [] => none
  | item :: items =>
    match equalIndex? item (index + 1) items with
    | some other => some (index, other)
    | none => duplicate? (index + 1) items

/-- No two items are equal, if that is asked for. -/
def unique (rules : Rules) (path place : Pointer) : Check (List Tree) := fun items =>
  match rules.find? .uniqueItems with
  | none => Check.pass items
  | some (.boolean false) => Check.pass items
  | some (.boolean true) =>
    match duplicate? 0 items with
    | none => Check.pass items
    | some (first, second) => Check.violate path (.equalItems first second) items
  | some _ => Check.raise (.invalid .uniqueItems place .expectedBoolean) items

/-- The keywords for arrays. -/
def arrayCheck (collectAll : Bool) (walk : Walk) (rules : Rules) (path place : Pointer) :
    Check (List Tree) :=
  Check.all collectAll
    [itemsCheck collectAll walk rules path place,
     Check.ofKeyword (rules.count .minItems place) fun least items =>
      Check.demand (decide (least ≤ items.length)) path (.tooFewItems items.length least) items,
     Check.ofKeyword (rules.count .maxItems place) fun most items =>
      Check.demand (decide (items.length ≤ most)) path (.tooManyItems items.length most) items,
     unique rules path place]

/-! ## Strings -/

/-- A pattern occurs in a string. The pattern is the meaning of its content, the string is the
content as it is kept. -/
def matching (engine : Pattern.Engine) (rules : Rules) (content : String)
    (path place : Pointer) : Check Tree :=
  match rules.find? .pattern with
  | none => Check.pass
  | some (.string source) =>
    let text := Escape.decodeText source
    match engine.compile text with
    | none => Check.raise (.invalid .pattern place .malformedPattern)
    | some occursIn => Check.demand (occursIn content) path (.unmatched text)
  | some _ => Check.raise (.invalid .pattern place .expectedString)

/-- The keywords for strings. Lengths count the bytes of the content. -/
def stringCheck (engine : Pattern.Engine) (collectAll : Bool) (rules : Rules) (content : String)
    (path place : Pointer) : Check Tree :=
  let length := content.utf8ByteSize
  Check.all collectAll
    [Check.ofKeyword (rules.count .minLength place) fun least =>
      Check.demand (decide (least ≤ length)) path (.tooShort length least),
     Check.ofKeyword (rules.count .maxLength place) fun most =>
      Check.demand (decide (length ≤ most)) path (.tooLong length most),
     matching engine rules content path place]

/-! ## Numbers -/

/-- Whether one number is a multiple of another: their quotient is as good as an integer. -/
def isMultiple (n divisor : Binary64) : Bool := (n.div divisor).approxEq (n.div divisor).round

/-- The keywords for numbers. -/
def numberCheck (collectAll : Bool) (rules : Rules) (n : Binary64) (path place : Pointer) :
    Check Tree :=
  Check.all collectAll
    [Check.ofKeyword (rules.number .multipleOf place) fun divisor =>
      if divisor.le Binary64.zero then Check.raise (.invalid .multipleOf place .notPositive)
      else Check.demand (isMultiple n divisor) path (.notMultiple n divisor),
     Check.ofKeyword (rules.bound .maximum .exclusiveMaximum place) fun (most, exclusive) =>
      Check.demand (if exclusive then n.lt most else n.le most) path
        (.aboveMaximum n most exclusive),
     Check.ofKeyword (rules.bound .minimum .exclusiveMinimum place) fun (least, exclusive) =>
      Check.demand (if exclusive then least.lt n else least.le n) path
        (.belowMinimum n least exclusive)]

/-! ## Levels -/

/-- The keywords for the kind of a node. -/
def kindCheck (engine : Pattern.Engine) (collectAll : Bool) (walk : Walk) (rules : Rules)
    (path place : Pointer) : Check Tree := fun node =>
  match node with
  | .object members => (objectCheck collectAll walk rules path place members).map .object
  | .array items => (arrayCheck collectAll walk rules path place items).map .array
  | .string content => stringCheck engine collectAll rules content path place node
  | .number n => numberCheck collectAll rules n path place node
  | .boolean _ => Check.pass node
  | .null => Check.pass node

/-- The check of one schema object. -/
def level (engine : Pattern.Engine) (collectAll : Bool) (walk : Walk) (rules : Rules)
    (path place : Pointer) : Check Tree :=
  Check.whenPassed (Check.all collectAll (generalChecks collectAll walk rules path place))
    (kindCheck engine collectAll walk rules path place)

/-- The check of one schema: it must be an object, and no deeper than the limit. -/
def applyOnce (engine : Pattern.Engine) (options : ValidatorOptions) (depth : Nat) (walk : Walk) :
    Walk :=
  fun schema path place =>
    match schema with
    | .object rules =>
      match options.maxDepth.filter (· ≤ depth) with
      | some limit => Check.raise (.tooDeep limit path)
      | none => level engine options.collectAll walk rules path place
    | other => Check.raise (.invalid .schema place (.notAnObject other.kindName))

/-- The check of a schema of the given height that stands `depth` levels below the root. Every
schema below another one is lower than it, so height zero is never reached. -/
def walk (engine : Pattern.Engine) (options : ValidatorOptions) : Nat → Nat → Walk
  | 0, _ => fun _ _ _ => Check.pass
  | height + 1, depth => applyOnce engine options depth (walk engine options height (depth + 1))

end Schema

namespace Tree

mutual

/-- The number of levels of a tree, one for a scalar. -/
def height : Tree → Nat
  | array items => heightItems items + 1
  | object members => heightMembers members + 1
  | _ => 1

/-- The greatest height of the items. -/
def heightItems : List Tree → Nat
  | [] => 0
  | item :: items => max (height item) (heightItems items)

/-- The greatest height of the values of members. -/
def heightMembers : List (String × Tree) → Nat
  | [] => 0
  | (_, value) :: members => max (height value) (heightMembers members)

end

end Tree
end JsonDoc
