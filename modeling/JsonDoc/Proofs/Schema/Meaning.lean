import JsonDoc.Proofs.Tree.Ordered
import JsonDoc.Schema.Walk

/-!
# What schemas mean

`Schema.Satisfies` says when data satisfies a schema, by recursion on the schema. It is a
conjunction over the keywords, in which no order of evaluation is left. A keyword whose value is
malformed asks for nothing here: the validator refuses such a schema where it looks at it. Which
patterns are malformed and where the others occur is for the engine to say.
-/

namespace JsonDoc

namespace Tree

theorem height_le_heightItems
    {item : Tree} {items : List Tree}
    (h : item ∈ items) :
    item.height ≤ heightItems items := by
  induction items with
  | nil =>
      simp at h
  | cons first items ih =>
      rw [heightItems]
      rcases List.mem_cons.mp h with rfl | h
      · omega
      · have := ih h
        omega

theorem height_le_heightMembers
    {key : String} {value : Tree} {members : Members Tree}
    (h : (key, value) ∈ members) :
    value.height ≤ heightMembers members := by
  induction members with
  | nil =>
      simp at h
  | cons first members ih =>
      obtain ⟨k, v⟩ := first
      rw [heightMembers]
      rcases List.mem_cons.mp h with eq | h
      · cases eq
        omega
      · have := ih h
        omega

end Tree

namespace Schema

/-! ## Values of keywords -/

/-- The number of a keyword. -/
def number? (rules : Rules) (keyword : Keyword) : Option Binary64 :=
  (rules.find? keyword).bind Tree.asNumber?

/-- The count of a keyword. Counts have 64 bits. -/
def count? (rules : Rules) (keyword : Keyword) : Option Nat :=
  (number? rules keyword).map fun n => min n.truncate.toNat Rules.maxCount

/-- The size is at least one keyword's count and at most the other's. -/
def Within (rules : Rules) (least most : Keyword) (size : Nat) : Prop :=
  (∀ n, count? rules least = some n → n ≤ size) ∧ (∀ n, count? rules most = some n → size ≤ n)

/-- The data has the type of a name. -/
def HasType (data : Tree) (name : String) : Prop :=
  name = "any" ∨ (name = "integer" ∧ ∃ n, data = .number n ∧ n.isIntegral) ∨ data.kindName = name

/-- The value of `type` lists a name: alone, or among others. -/
def Lists (value : Tree) (name : String) : Prop :=
  value = .string name ∨ ∃ names, value = .array names ∧ .string name ∈ names

/-- The flag of a keyword is set. -/
def Set
    (rules : Rules)
    (keyword : Keyword) : Prop :=
  rules.find? keyword = some (.boolean true)

/-- What the keywords for strings ask of the content of a string. -/
structure StringFits (engine : Pattern.Engine) (rules : Rules) (content : String) : Prop where
  length : Within rules .minLength .maxLength content.utf8ByteSize
  pattern : ∀ source occursIn, rules.find? .pattern = some (.string source) →
    engine.compile (Escape.decodeText source) = some occursIn → occursIn content

/-- What the keywords for numbers ask of a number. -/
structure NumberFits (rules : Rules) (n : Binary64) : Prop where
  multipleOf : ∀ divisor, number? rules .multipleOf = some divisor →
    (n.div divisor).approxEq (n.div divisor).round
  maximum : ∀ most, number? rules .maximum = some most →
    (Set rules .exclusiveMaximum → n.lt most) ∧ (¬ Set rules .exclusiveMaximum → n.le most)
  minimum : ∀ least, number? rules .minimum = some least →
    (Set rules .exclusiveMinimum → least.lt n) ∧ (¬ Set rules .exclusiveMinimum → least.le n)

/-! ## Positions -/

/-- The schemas directly below a schema. -/
inductive Child : Tree → Tree → Prop
  | branch {rules : Rules} {keyword : Keyword} {branches : List Tree} {schema : Tree} :
      keyword ∈ [.allOf, .anyOf, .oneOf, .not] →
      rules.find? keyword = some (.array branches) → schema ∈ branches →
      Child (.object rules) schema
  | negated {rules : Rules} {schema : Rules} :
      rules.find? .not = some (.object schema) → Child (.object rules) (.object schema)
  | property {rules : Rules} {schemas : Members Tree} {key : String} {schema : Tree} :
      rules.find? .properties = some (.object schemas) → (key, schema) ∈ schemas →
      Child (.object rules) schema
  | items {rules : Rules} {schema : Rules} :
      rules.find? .items = some (.object schema) → Child (.object rules) (.object schema)
  | item {rules : Rules} {schemas : List Tree} {schema : Tree} :
      rules.find? .items = some (.array schemas) → schema ∈ schemas →
      Child (.object rules) schema
  | additionalItems {rules : Rules} {schemas : List Tree} {schema : Rules} :
      rules.find? .items = some (.array schemas) →
      rules.find? .additionalItems = some (.object schema) →
      Child (.object rules) (.object schema)

/-- The schemas at or below a schema. -/
inductive Position (root : Tree) : Tree → Prop
  | root : Position root root
  | child {schema below : Tree} : Position root schema → Child schema below → Position root below

/-- A position is the schema itself or a position of a schema directly below. -/
theorem Position.root_or_below
    {root schema : Tree}
    (position : Position root schema) :
    schema = root ∨ ∃ below, Child root below ∧ Position below schema := by
  induction position with
  | root =>
      exact Or.inl rfl
  | child _ further ih =>
      rcases ih with rfl | ⟨below, first, position⟩
      · exact Or.inr ⟨_, further, .root⟩
      · exact Or.inr ⟨below, first, .child position further⟩

theorem Position.of_child
    {root below schema : Tree}
    (first : Child root below)
    (position : Position below schema) :
    Position root schema := by
  induction position with
  | root =>
      exact .child .root first
  | child _ further ih =>
      exact .child ih further

/-- No property has a default, at any position of a schema. -/
def NoDefaults (root : Tree) : Prop :=
  ∀ (rules : Rules) (schemas : Members Tree) (key : String) (schema : Tree),
    Position root (.object rules) → rules.find? .properties = some (.object schemas) →
    (key, schema) ∈ schemas → schema.get? Keyword.default.name = none

theorem height_lt_of_find?
    {rules : Rules} {keyword : Keyword} {value : Tree}
    (h : rules.find? keyword = some value) :
    value.height < (Tree.object rules).height := by
  have := Tree.height_le_heightMembers (Members.mem_of_get? h)
  rw [Tree.height]
  omega

theorem height_lt_of_item
    {rules : Rules} {keyword : Keyword} {items : List Tree} {item : Tree}
    (h : rules.find? keyword = some (.array items))
    (mem : item ∈ items) :
    item.height < (Tree.object rules).height := by
  have below := height_lt_of_find? h
  have := Tree.height_le_heightItems mem
  rw [Tree.height] at below
  omega

theorem height_lt_of_member
    {rules : Rules} {keyword : Keyword} {members : Members Tree} {key : String}
    {value : Tree}
    (h : rules.find? keyword = some (.object members))
    (mem : (key, value) ∈ members) :
    value.height < (Tree.object rules).height := by
  have below := height_lt_of_find? h
  have := Tree.height_le_heightMembers mem
  rw [Tree.height] at below
  omega

theorem Child.height_lt
    {schema below : Tree}
    (h : Child schema below) :
    below.height < schema.height := by
  cases h with
  | branch _ h mem =>
      exact height_lt_of_item h mem
  | negated h =>
      exact height_lt_of_find? h
  | property h mem =>
      exact height_lt_of_member h mem
  | items h =>
      exact height_lt_of_find? h
  | item h mem =>
      exact height_lt_of_item h mem
  | additionalItems _ h =>
      exact height_lt_of_find? h

/-! ## Satisfaction -/

section Keywords

-- `below` says when data satisfies a schema directly below this one
variable (engine : Pattern.Engine) (rules : Rules)
  (below : (schema : Tree) → Child (.object rules) schema → Tree → Prop)

/-- What the keywords for nodes of all kinds ask. -/
structure GeneralFits (data : Tree) : Prop where
  enumeration : ∀ options, rules.find? .enumeration = some (.array options) →
    ∃ option ∈ options, option.approxEq data
  type : ∀ value, rules.find? .type = some value → ∃ name, Lists value name ∧ HasType data name
  allOf : ∀ branches (found : rules.find? .allOf = some (.array branches)) branch
    (mem : branch ∈ branches), below branch (.branch (by decide) found mem) data
  anyOf : ∀ branches (found : rules.find? .anyOf = some (.array branches)),
    ∃ branch, ∃ mem : branch ∈ branches, below branch (.branch (by decide) found mem) data
  oneOf : ∀ branches (found : rules.find? .oneOf = some (.array branches)),
    ∃ i, ∃ hi : i < branches.length,
      below branches[i] (.branch (by decide) found (List.getElem_mem hi)) data ∧
      ∀ j (hj : j < branches.length),
        below branches[j] (.branch (by decide) found (List.getElem_mem hj)) data → j = i
  not : ∀ branches (found : rules.find? .not = some (.array branches)) branch
    (mem : branch ∈ branches), ¬ below branch (.branch (by decide) found mem) data
  negated : ∀ schema (found : rules.find? .not = some (.object schema)),
    ¬ below (.object schema) (.negated found) data

/-- What the keywords for objects ask of members. -/
structure ObjectFits (members : Members Tree) : Prop where
  properties : ∀ schemas (found : rules.find? .properties = some (.object schemas)) key schema
    (mem : (key, schema) ∈ schemas) child, members.get? key = some child →
    below schema (.property found mem) child
  required : ∀ names name, rules.find? .required = some (.array names) →
    Tree.string name ∈ names → members.contains name
  size : Within rules .minProperties .maxProperties members.length

/-- What the keywords for arrays ask of items. -/
structure ArrayFits (items : List Tree) : Prop where
  all : ∀ schema (found : rules.find? .items = some (.object schema)) item, item ∈ items →
    below (.object schema) (.items found) item
  governed : ∀ schemas (found : rules.find? .items = some (.array schemas)) i
    (hi : i < schemas.length) item, items[i]? = some item →
    below schemas[i] (.item found (List.getElem_mem hi)) item
  rest : ∀ schemas (found : rules.find? .items = some (.array schemas)),
    schemas.length < items.length → ∀ value, rules.find? .additionalItems = some value →
    value = .boolean true ∨ ∃ schema, ∃ rest : rules.find? .additionalItems = some (.object schema),
      ∀ item ∈ items.drop schemas.length,
        below (.object schema) (.additionalItems found rest) item
  size : Within rules .minItems .maxItems items.length
  unique : Set rules .uniqueItems → items.Pairwise fun a b => ¬ a.approxEq b

/-- What the keywords for the kind of the data ask. -/
def KindFits : Tree → Prop
  | .object members => ObjectFits rules below members
  | .array items => ArrayFits rules below items
  | .string content => StringFits engine rules content
  | .number n => NumberFits rules n
  | .boolean _ => True
  | .null => True

end Keywords

/-- The data satisfies the schema. -/
def Satisfies (engine : Pattern.Engine) : Tree → Tree → Prop
  | .object rules, data =>
    GeneralFits rules (fun schema (_ : Child (.object rules) schema) => Satisfies engine schema)
        data ∧
      KindFits engine rules
        (fun schema (_ : Child (.object rules) schema) => Satisfies engine schema) data
  | _, _ => False
termination_by schema => schema.height
decreasing_by
  all_goals exact Child.height_lt ‹_›

theorem satisfies_object
    (engine : Pattern.Engine)
    (rules : Rules)
    (data : Tree) :
    Satisfies engine (.object rules) data ↔
      GeneralFits rules (fun schema _ => Satisfies engine schema) data ∧
        KindFits engine rules (fun schema _ => Satisfies engine schema) data := by
  rw [Satisfies]

end Schema
end JsonDoc
