import JsonDoc.Proofs.Schema.Keywords
import JsonDoc.Proofs.Schema.Settled

/-!
# Conditions on all schemas below a schema

`Everywhere` says that a condition holds of a schema and of every schema below it, whichever keyword
they stand under; `Throughout` looks only at those that fill in defaults. The schemas directly below
one are listed by `childSchemas`, so conditions on small schemas can be proved schema by schema.
-/

namespace JsonDoc
namespace Schema

open JsonDoc.Tree

/-- Every schema at or below a schema satisfies a condition. -/
def Everywhere (condition : Rules → Prop) (root : Tree) : Prop :=
  ∀ rules, Position root (.object rules) → condition rules

/-- The schemas in the list under a keyword. -/
def listedSchemas (rules : Rules) (keyword : Keyword) : List Tree :=
  match rules.find? keyword with
  | some (.array schemas) => schemas
  | _ => []

/-- The single schema under `not`. -/
def negatedSchemas (rules : Rules) : List Tree :=
  match rules.find? .not with
  | some (.object schema) => [.object schema]
  | _ => []

/-- The schemas directly below a level. -/
def childSchemas (rules : Rules) : List Tree :=
  [.allOf, .anyOf, .oneOf, .not].flatMap (listedSchemas rules) ++ negatedSchemas rules ++
    partSchemas rules

section Positions

variable {rules : Rules} {schema lower root : Tree} {condition : Rules → Prop}

theorem mem_childSchemas
    (child : Child (.object rules) schema) :
    schema ∈ childSchemas rules := by
  have part (mem : schema ∈ partSchemas rules) : schema ∈ childSchemas rules :=
    List.mem_append_right _ mem
  cases child with
  | @branch _ keyword _ _ combines found mem =>
      refine List.mem_append_left _ (List.mem_append_left _ ?_)
      refine List.mem_flatMap.mpr ⟨keyword, combines, ?_⟩
      simp only [listedSchemas, found]
      exact mem
  | negated found =>
      refine List.mem_append_left _ (List.mem_append_right _ ?_)
      simp [negatedSchemas, found]
  | @property _ _ key _ found mem =>
      have entry : (key, schema) ∈ propertySchemas rules := by
        simp only [propertySchemas, found]
        exact mem
      exact part (part_of_property entry)
  | items found =>
      exact part (part_of_item (by simp [itemSchemas, found]))
  | item found mem =>
      refine part (part_of_item ?_)
      simp only [itemSchemas, found]
      split
      · exact List.mem_append_left _ mem
      · exact mem
  | additionalItems found additional =>
      exact part (part_of_item (by simp [itemSchemas, found, additional]))

theorem child_of_mem
    (mem : schema ∈ childSchemas rules) :
    Child (.object rules) schema := by
  rcases List.mem_append.mp mem with mem | part
  · rcases List.mem_append.mp mem with listed | negated
    · obtain ⟨keyword, combines, mem⟩ := List.mem_flatMap.mp listed
      unfold listedSchemas at mem
      split at mem
      · rename_i found
        exact .branch combines found mem
      · cases mem
    · unfold negatedSchemas at negated
      split at negated
      · rename_i found
        rw [List.mem_singleton] at negated
        subst negated
        exact .negated found
      · cases negated
  · exact (applied_part part).child

/-- The schemas that are read under a keyword are its branches. -/
theorem branches_of_schemas
    {keyword : Keyword} {place : Pointer} {value : Tree} {schemas : List Tree}
    (found : rules.find? keyword = some value)
    (read : Rules.schemas keyword place value = .ok schemas) :
    Branches rules keyword schemas := by
  unfold Rules.schemas at read
  split at read
  · cases read
    exact Or.inl found
  · split at read
    · rename_i members isNot
      subst isNot
      cases read
      exact Or.inr ⟨rfl, members, found, rfl⟩
    · cases read
  · cases read

theorem Everywhere.here
    (h : Everywhere condition (.object rules)) :
    condition rules := h rules .root

theorem Everywhere.below
    (h : Everywhere condition schema)
    (child : Child schema lower) :
    Everywhere condition lower :=
  fun rules position => h rules (.of_child child position)

/-- A condition holds everywhere if it does so at a level and everywhere below it. -/
theorem everywhere_object
    (here : condition rules)
    (below : ∀ schema ∈ childSchemas rules, Everywhere condition schema) :
    Everywhere condition (.object rules) := by
  intro rules' position
  rcases position.root_or_below with same | ⟨schema, child, position⟩
  · cases same
    exact here
  · exact below schema (mem_childSchemas child) rules' position

/-! ## Order -/

theorem Child.ordered
    (child : Child schema lower)
    (ordered : schema.Ordered) :
    lower.Ordered := by
  cases child with
  | branch _ found mem | item found mem =>
      exact (ordered.member found).item mem
  | negated found | items found | additionalItems _ found =>
      exact ordered.member found
  | property found mem =>
      exact ordered_entry (ordered.member found) mem

theorem Position.ordered
    (position : Position root schema)
    (ordered : root.Ordered) :
    schema.Ordered := by
  induction position with
  | root =>
      exact ordered
  | child _ further ih =>
      exact further.ordered ih

end Positions

end Schema
end JsonDoc
