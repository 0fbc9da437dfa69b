import JsonDoc.Proofs.Schema.Positions

/-!
# Reordered branches

`Reorders` says that two schemas are the same but for the order of the branches of one `allOf`, at
the root or at any schema below it. All keywords read the same there, but for the schemas under one
keyword, of which one is reordered: `RelatedRules`.
-/

namespace JsonDoc

namespace Keyword

/-- The keyword of a name. -/
def ofName? (name : String) : Option Keyword :=
  [schema, enumeration, type, allOf, anyOf, oneOf, not, properties, required, minProperties,
    maxProperties, items, additionalItems, minItems, maxItems, uniqueItems, minLength, maxLength,
    pattern, multipleOf, maximum, exclusiveMaximum, minimum, exclusiveMinimum, default,
    patternProperties, additionalProperties, dependencies].find? (·.name == name)

theorem ofName?_name
    (keyword : Keyword) :
    ofName? keyword.name = some keyword := by
  cases keyword <;> decide

theorem name_injective :
    Function.Injective Keyword.name := by
  intro a b same
  have both := ofName?_name a
  rw [same, ofName?_name b] at both
  exact (Option.some.inj both).symm

end Keyword

namespace Rules

theorem find?_replace
    {rules : Rules} {keyword : Keyword} {value : Tree}
    (found : rules.find? keyword = some value)
    (value' : Tree)
    (other : Keyword) :
    Rules.find? (rules.replace keyword.name value') other =
      if other = keyword then some value' else rules.find? other := by
  unfold find? at found ⊢
  simp only [Members.get?_replace, Keyword.name_injective.eq_iff, found, Option.map_some]

end Rules

namespace Schema

open JsonDoc.Tree

/-- The second schema is the first one with the branches of one `allOf` in another order, if the
branches are allowed to change places. -/
inductive Reorders (allowed : List Tree → Prop) : Tree → Tree → Prop
  | allOf {rules : Rules} {branches branches' : List Tree} :
      rules.find? .allOf = some (.array branches) → branches.Perm branches' → allowed branches →
      Reorders allowed (.object rules)
        (.object (rules.replace Keyword.allOf.name (.array branches')))
  | listed {rules : Rules} {keyword : Keyword} {schemas : List Tree} {i : Nat}
      {schema schema' : Tree} :
      keyword ∈ [.allOf, .anyOf, .oneOf, .not, .items] →
      rules.find? keyword = some (.array schemas) → schemas[i]? = some schema →
      Reorders allowed schema schema' →
      Reorders allowed (.object rules)
        (.object (rules.replace keyword.name (.array (schemas.set i schema'))))
  | single {rules schema schema' : Rules} {keyword : Keyword} :
      keyword ∈ [.not, .items, .additionalItems] → rules.find? keyword = some (.object schema) →
      Reorders allowed (.object schema) (.object schema') →
      Reorders allowed (.object rules) (.object (rules.replace keyword.name (.object schema')))
  | property {rules : Rules} {schemas : Members Tree} {key : String} {schema schema' : Tree} :
      rules.find? .properties = some (.object schemas) → schemas.get? key = some schema →
      Reorders allowed schema schema' →
      Reorders allowed (.object rules)
        (.object (rules.replace Keyword.properties.name (.object (schemas.replace key schema'))))

/-- The same schema, or a reordered one. -/
def Reordered (allowed : List Tree → Prop) (schema schema' : Tree) : Prop :=
  schema = schema' ∨ Reorders allowed schema schema'

section Related

variable {allowed : List Tree → Prop} {schema schema' : Tree} {rules rules' : Rules}
variable {keyword : Keyword} {value value' : Tree}

theorem Reordered.refl
    (schema : Tree) :
    Reordered allowed schema schema := Or.inl rfl

theorem forall₂_reordered_refl
    (schemas : List Tree) :
    List.Forall₂ (Reordered allowed) schemas schemas :=
  List.forall₂_same.mpr fun schema _ => .refl schema

/-- The keywords that hold schemas. -/
def schemaKeywords : List Keyword :=
  [.allOf, .anyOf, .oneOf, .not, .properties, .items, .additionalItems]

/-- The two properties have the same key, and reordered schemas. -/
def RelatedEntry
    (allowed : List Tree → Prop)
    (entry entry' : String × Tree) : Prop :=
  entry'.1 = entry.1 ∧ Reordered allowed entry.2 entry'.2

/-- The value of a keyword with reordered schemas in the places where it has schemas. -/
inductive RelatedValue (allowed : List Tree → Prop) (keyword : Keyword) : Tree → Tree → Prop
  | same (value : Tree) : RelatedValue allowed keyword value value
  | listed {schemas schemas' : List Tree} : keyword ∈ [.allOf, .anyOf, .oneOf, .not, .items] →
      List.Forall₂ (Reordered allowed) schemas schemas' →
      RelatedValue allowed keyword (.array schemas) (.array schemas')
  | single {schema schema' : Rules} : keyword ∈ [.not, .items, .additionalItems] →
      Reordered allowed (.object schema) (.object schema') →
      RelatedValue allowed keyword (.object schema) (.object schema')
  | properties {schemas schemas' : Members Tree} : keyword = .properties →
      List.Forall₂ (RelatedEntry allowed) schemas schemas' →
      RelatedValue allowed keyword (.object schemas) (.object schemas')

/-- The keyword has related values, or is missing on both sides. -/
def RelatedKeyword
    (allowed : List Tree → Prop)
    (rules rules' : Rules)
    (keyword : Keyword) : Prop :=
  Option.Rel (RelatedValue allowed keyword) (rules.find? keyword) (rules'.find? keyword)

theorem relatedKeyword_refl :
    RelatedKeyword allowed rules rules keyword := by
  unfold RelatedKeyword
  cases rules.find? keyword with
  | none =>
      exact .none
  | some value =>
      exact .some (.same value)

/-- Putting in a related value changes no other keyword. -/
theorem relatedKeyword_replace
    (found : rules.find? keyword = some value)
    (related : RelatedValue allowed keyword value value')
    (other : Keyword) :
    RelatedKeyword allowed rules (rules.replace keyword.name value') other := by
  unfold RelatedKeyword
  rw [Rules.find?_replace found]
  split
  · rename_i same
    subst same
    rw [found]
    exact .some related
  · exact relatedKeyword_refl

namespace RelatedValue

theorem array
    {schemas : List Tree}
    (related : RelatedValue allowed keyword (.array schemas) value') :
    ∃ schemas', value' = .array schemas' ∧
      List.Forall₂ (Reordered allowed) schemas schemas' := by
  cases related with
  | same =>
      exact ⟨schemas, rfl, forall₂_reordered_refl schemas⟩
  | listed _ each =>
      exact ⟨_, rfl, each⟩

theorem object
    {schema : Rules}
    (single : keyword ≠ .properties)
    (related : RelatedValue allowed keyword (.object schema) value') :
    ∃ schema' : Rules, value' = .object schema' ∧
      Reordered allowed (.object schema) (.object schema') := by
  cases related with
  | same =>
      exact ⟨schema, rfl, .refl _⟩
  | single _ reordered =>
      exact ⟨_, rfl, reordered⟩
  | properties isProperties _ =>
      exact absurd isProperties single

theorem members
    {schemas : Members Tree}
    (related : RelatedValue allowed .properties (.object schemas) value') :
    ∃ schemas' : Members Tree, value' = .object schemas' ∧
      List.Forall₂ (RelatedEntry allowed) schemas schemas' := by
  cases related with
  | same =>
      exact ⟨schemas, rfl, List.forall₂_same.mpr fun _ _ => ⟨rfl, .refl _⟩⟩
  | single single _ =>
      simp at single
  | properties _ each =>
      exact ⟨_, rfl, each⟩

theorem scalar
    (related : RelatedValue allowed keyword value value')
    (noArray : value.isArray = false)
    (noObject : value.isObject = false) :
    value' = value := by
  cases related with
  | same =>
      rfl
  | listed =>
      cases noArray
  | single | properties =>
      cases noObject

end RelatedValue

namespace RelatedKeyword

variable (related : RelatedKeyword allowed rules rules' keyword)

include related

theorem none
    (missing : rules.find? keyword = .none) :
    rules'.find? keyword = .none := by
  unfold RelatedKeyword at related
  rw [missing] at related
  cases related' : rules'.find? keyword with
  | none =>
      rfl
  | some value =>
      rw [related'] at related
      cases related

theorem some
    (found : rules.find? keyword = .some value) :
    ∃ value', rules'.find? keyword = .some value' ∧ RelatedValue allowed keyword value value' := by
  unfold RelatedKeyword at related
  rw [found] at related
  cases related' : rules'.find? keyword with
  | none =>
      rw [related'] at related
      cases related
  | some value' =>
      rw [related'] at related
      cases related with
      | some related =>
          exact ⟨value', rfl, related⟩

/-- A keyword that holds no schemas has the same value. -/
theorem plain
    (noSchemas : keyword ∉ schemaKeywords) :
    rules'.find? keyword = rules.find? keyword := by
  cases found : rules.find? keyword with
  | none =>
      exact related.none found
  | some value =>
      obtain ⟨value', found', relatedValue⟩ := related.some found
      rw [found']
      cases relatedValue with
      | same =>
          rfl
      | listed lists _ | single lists _ =>
          exact absurd lists fun mem => noSchemas (by revert mem; cases keyword <;> decide)
      | properties isProperties _ =>
          exact absurd (isProperties ▸ noSchemas) (by decide)

end RelatedKeyword

/-- At two levels, all keywords have related values, or the branches of `allOf` have changed
places. -/
structure RelatedRules (allowed : List Tree → Prop) (rules rules' : Rules) : Prop where
  others : ∀ keyword ≠ Keyword.allOf, RelatedKeyword allowed rules rules' keyword
  allOf : RelatedKeyword allowed rules rules' .allOf ∨
    ∃ branches branches', rules.find? .allOf = .some (.array branches) ∧
      rules'.find? .allOf = .some (.array branches') ∧ branches.Perm branches' ∧ allowed branches

theorem relatedRules_refl :
    RelatedRules allowed rules rules :=
  ⟨fun _ _ => relatedKeyword_refl, Or.inl relatedKeyword_refl⟩

theorem relatedRules_replace
    (found : rules.find? keyword = .some value)
    (related : RelatedValue allowed keyword value value') :
    RelatedRules allowed rules (rules.replace keyword.name value') :=
  ⟨fun other _ => relatedKeyword_replace found related other,
    Or.inl (relatedKeyword_replace found related .allOf)⟩

theorem Reorders.level
    (reorders : Reorders allowed (.object rules) schema')
    (ordered : (Tree.object rules).Ordered) :
    ∃ rules' : Rules, schema' = .object rules' ∧ RelatedRules allowed rules rules' := by
  cases reorders with
  | @allOf _ branches branches' found perm isAllowed =>
      refine ⟨_, rfl, ?_, Or.inr ⟨branches, branches', found, ?_, perm, isAllowed⟩⟩
      · intro keyword other
        unfold RelatedKeyword
        rw [Rules.find?_replace found, if_neg other]
        exact relatedKeyword_refl
      · rw [Rules.find?_replace found, if_pos rfl]
  | @listed _ keyword schemas i schema schema' lists found here below =>
      refine ⟨_, rfl, relatedRules_replace found (.listed lists ?_)⟩
      refine List.forall₂_iff_get.mpr ⟨List.length_set.symm, fun j before after => ?_⟩
      by_cases same : i = j
      · subst same
        obtain ⟨_, rfl⟩ := List.getElem?_eq_some_iff.mp here
        refine Or.inr ?_
        simpa using below
      · refine Or.inl ?_
        simp [same]
  | single stands found below =>
      exact ⟨_, rfl, relatedRules_replace found (.single stands (Or.inr below))⟩
  | @property _ schemas key schema schema' found here below =>
      refine ⟨_, rfl, relatedRules_replace found (.properties rfl ?_)⟩
      have sorted := (ordered.member found).sorted
      refine List.forall₂_map_right_iff.mpr (List.forall₂_same.mpr ?_)
      rintro ⟨other, value⟩ mem
      by_cases same : other = key
      · subst same
        have eq := Option.some.inj ((sorted.get?_of_mem mem).symm.trans here)
        rw [if_pos rfl]
        exact ⟨rfl, Or.inr (eq ▸ below)⟩
      · rw [if_neg same]
        exact ⟨rfl, .refl _⟩

theorem Reordered.level
    (reordered : Reordered allowed (.object rules) schema')
    (ordered : (Tree.object rules).Ordered) :
    ∃ rules' : Rules, schema' = .object rules' ∧ RelatedRules allowed rules rules' := by
  rcases reordered with rfl | reorders
  · exact ⟨rules, rfl, relatedRules_refl⟩
  · exact reorders.level ordered

/-- Reordering changes no default. -/
theorem Reordered.default
    (reordered : Reordered allowed schema schema')
    (ordered : schema.Ordered) :
    schema'.get? Keyword.default.name = schema.get? Keyword.default.name := by
  cases schema with
  | object rules =>
      obtain ⟨rules', rfl, related⟩ := reordered.level ordered
      exact (related.others .default (by decide)).plain (by decide)
  | null | boolean | number | string | array =>
      rcases reordered with rfl | reorders
      · rfl
      · cases reorders

end Related

end Schema
end JsonDoc
