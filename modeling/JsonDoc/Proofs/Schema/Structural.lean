import JsonDoc.Proofs.Schema.Leaving

/-!
# Structural schemas

`Schema.structural` keeps of a schema only the keywords by which defaults are filled in: `allOf`,
`properties`, `items` and `additionalItems`, which lead to other schemas, and `default`. It does so
for the schemas that these keywords lead to as well. All other keywords are gone there, with the
schemas inside `anyOf`, `oneOf` and `not`.
-/

namespace JsonDoc
namespace Schema

open JsonDoc.Tree

/-- The keywords by which defaults are filled in. -/
def structuralKeywords : List Keyword :=
  [.allOf, .properties, .default, .items, .additionalItems]

/-- Whether a member of a schema object is kept. -/
def isStructural (name : String) : Bool :=
  structuralKeywords.any fun keyword => keyword.name == name

mutual

/-- The schema with its structural keywords only. -/
def structural : Tree → Tree
  | .object rules => .object (structuralRules rules)
  | other => other

def structuralRules : List (String × Tree) → List (String × Tree)
  | [] => []
  | (name, value) :: rules =>
    if isStructural name then (name, structuralValue name value) :: structuralRules rules
    else structuralRules rules

/-- The value of a keyword with structural schemas in the places where it has schemas. -/
def structuralValue (name : String) : Tree → Tree
  | .array schemas =>
    if name = Keyword.allOf.name ∨ name = Keyword.items.name then .array (structuralAll schemas)
    else .array schemas
  | .object members =>
    if name = Keyword.properties.name then .object (structuralMembers members)
    else if name = Keyword.items.name ∨ name = Keyword.additionalItems.name then
      .object (structuralRules members)
    else .object members
  | other => other

def structuralAll : List Tree → List Tree
  | [] => []
  | schema :: schemas => structural schema :: structuralAll schemas

def structuralMembers : List (String × Tree) → List (String × Tree)
  | [] => []
  | (key, schema) :: members => (key, structural schema) :: structuralMembers members

end

theorem structuralAll_eq
    (schemas : List Tree) :
    structuralAll schemas = schemas.map structural := by
  induction schemas with
  | nil =>
      rfl
  | cons schema schemas ih =>
      rw [structuralAll, ih, List.map_cons]

theorem structuralMembers_eq
    (members : List (String × Tree)) :
    structuralMembers members = members.map fun entry => (entry.1, structural entry.2) := by
  induction members with
  | nil =>
      rfl
  | cons entry members ih =>
      obtain ⟨key, schema⟩ := entry
      rw [structuralMembers, ih, List.map_cons]

/-! ## Keywords of structural schemas -/

theorem get?_structuralRules
    (rules : Rules)
    (name : String) :
    Members.get? (structuralRules rules) name =
      if isStructural name then (rules.get? name).map (structuralValue name) else none := by
  induction rules with
  | nil =>
      simp [structuralRules]
  | cons rule rules ih =>
      obtain ⟨other, value⟩ := rule
      by_cases same : other = name
      · subst same
        by_cases kept : isStructural other
        · simp [structuralRules, kept, Members.get?_cons]
        · simp [structuralRules, kept, ih]
      · by_cases kept : isStructural other
        · simp [structuralRules, kept, Members.get?_cons, same, ih]
        · simp [structuralRules, kept, Members.get?_cons, same, ih]

theorem isStructural_name
    (keyword : Keyword) :
    isStructural keyword.name = decide (keyword ∈ structuralKeywords) := by
  cases keyword <;> decide

theorem find?_structural
    (rules : Rules)
    {keyword : Keyword}
    (kept : keyword ∈ structuralKeywords) :
    Rules.find? (structuralRules rules) keyword =
      (rules.find? keyword).map (structuralValue keyword.name) := by
  rw [Rules.find?, get?_structuralRules, isStructural_name, if_pos (by simpa using kept)]
  rfl

theorem find?_erased
    (rules : Rules)
    {keyword : Keyword}
    (erased : keyword ∉ structuralKeywords) :
    Rules.find? (structuralRules rules) keyword = none := by
  rw [Rules.find?, get?_structuralRules, isStructural_name, if_neg (by simpa using erased)]

theorem default_structural
    (schema : Tree) :
    (structural schema).get? Keyword.default.name = schema.get? Keyword.default.name := by
  cases schema with
  | object rules =>
      have kept : isStructural Keyword.default.name := by decide
      have same (value : Tree) : structuralValue Keyword.default.name value = value := by
        cases value <;> simp [structuralValue, Keyword.name]
      simp [structural, Tree.get?, asObject?, get?_structuralRules, kept, funext same]
  | null | boolean | number | string | array =>
      rfl

theorem allOfSchemas_structural
    (rules : Rules) :
    allOfSchemas (structuralRules rules) = (allOfSchemas rules).map structural := by
  unfold allOfSchemas
  rw [find?_structural rules (by decide)]
  cases rules.find? .allOf with
  | none =>
      rfl
  | some value =>
      cases value with
      | array schemas =>
          simp [structuralValue, structuralAll_eq]
      | object members =>
          simp [structuralValue, Keyword.name]
      | null | boolean | number | string =>
          rfl

theorem propertySchemas_structural
    (rules : Rules) :
    propertySchemas (structuralRules rules) =
      (propertySchemas rules).map fun entry => (entry.1, structural entry.2) := by
  unfold propertySchemas
  rw [find?_structural rules (by decide)]
  cases rules.find? .properties with
  | none =>
      rfl
  | some value =>
      cases value with
      | object schemas =>
          simp [structuralValue, structuralMembers_eq]
      | array schemas =>
          simp [structuralValue, Keyword.name]
      | null | boolean | number | string =>
          rfl

theorem itemSchemas_structural
    (rules : Rules) :
    itemSchemas (structuralRules rules) = (itemSchemas rules).map structural := by
  unfold itemSchemas
  rw [find?_structural rules (by decide), find?_structural rules (by decide)]
  cases rules.find? .items with
  | none =>
      rfl
  | some value =>
      cases value with
      | object schema =>
          simp [structuralValue, structural, Keyword.name]
      | array schemas =>
          cases rules.find? .additionalItems with
          | none =>
              simp [structuralValue, structuralAll_eq]
          | some additional =>
              cases additional <;>
                simp [structuralValue, structural, structuralAll_eq, Keyword.name]
      | null | boolean | number | string =>
          rfl

theorem itemSchema?_structural
    (rules : Rules)
    (index : Nat) :
    itemSchema? (structuralRules rules) index = (itemSchema? rules index).map structural := by
  unfold itemSchema?
  rw [find?_structural rules (by decide), find?_structural rules (by decide)]
  cases rules.find? .items with
  | none =>
      rfl
  | some value =>
      cases value with
      | object schema =>
          simp [structuralValue, structural, Keyword.name]
      | array schemas =>
          cases own : schemas[index]? with
          | some schema =>
              simp [structuralValue, structuralAll_eq, own]
          | none =>
              cases rules.find? .additionalItems with
              | none =>
                  simp [structuralValue, structuralAll_eq, own]
              | some additional =>
                  cases additional <;>
                    simp [structuralValue, structural, structuralAll_eq, own, Keyword.name]
      | null | boolean | number | string =>
          rfl

/-- What is applied with a schema is applied structurally with the structural schema. -/
theorem Applied.structural
    {schema lower : Tree}
    (h : Applied schema lower) :
    Applied (structural schema) (structural lower) := by
  cases schema with
  | object rules =>
      have mem : Schema.structural lower ∈
          (allOfSchemas rules ++ partSchemas rules).map Schema.structural := List.mem_map_of_mem h
      have same : allOfSchemas (structuralRules rules) ++ partSchemas (structuralRules rules) =
          (allOfSchemas rules ++ partSchemas rules).map Schema.structural := by
        simp [partSchemas, allOfSchemas_structural, propertySchemas_structural,
          itemSchemas_structural]
      rw [← same] at mem
      rw [Schema.structural]
      exact mem
  | null | boolean | number | string | array =>
      cases h

end Schema
end JsonDoc
