import JsonDoc.Proofs.Schema.FillingLevel
import Mathlib.Logic.Relation

/-!
# Settled schemas

A schema fills in defaults where its own properties and items have them, and where the branches of
its `allOf` do. The other combinations only try their branches out.

Defaults that are filled in late are not seen by what has been checked before. A schema is
`Lasting` if it bears any members that are filled in after it has been passed, and it is `Settled`
if, at each of its levels, whatever is checked before something is filled in bears that.
-/

namespace JsonDoc
namespace Schema

/-! ## Filling -/

/-- The schemas for parts of the data: for its members, and for its items. -/
def partSchemas (rules : Rules) : List Tree :=
  (propertySchemas rules).map Prod.snd ++ itemSchemas rules

/-- The second schema stands directly below the first, and fills in defaults with it. -/
def Applied : Tree → Tree → Prop
  | .object rules, lower => lower ∈ allOfSchemas rules ++ partSchemas rules
  | _, _ => False

/-- Every schema at or below a schema that fills in defaults with it satisfies a condition. -/
def Throughout (condition : Rules → Prop) (root : Tree) : Prop :=
  ∀ rules, Relation.ReflTransGen Applied root (.object rules) → condition rules

/-- Some property has a default. -/
def HasDefault (rules : Rules) : Prop :=
  ∃ entry ∈ propertySchemas rules, entry.2.get? Keyword.default.name ≠ none

/-- The schema may fill in something. -/
def Fills (root : Tree) : Prop :=
  ∃ rules, Relation.ReflTransGen Applied root (.object rules) ∧ HasDefault rules

/-- A level has none of the keywords that accept some values and refuse the same values with
members added. -/
def Plain (rules : Rules) : Prop :=
  ∀ keyword ∈ [.enumeration, .anyOf, .oneOf, .not], rules.find? keyword = none

instance (rules : Rules) : Decidable (Plain rules) :=
  inferInstanceAs (Decidable (∀ keyword ∈ _, _))

/-- A level that bears members that are filled in later. -/
structure LastingRules (rules : Rules) : Prop where
  plain : Plain rules
  unlimited : rules.find? .maxProperties = none
  repeating : ¬ Set rules .uniqueItems
  -- a member without default may be missing, and be there later without ever being checked
  given : ∀ entry ∈ propertySchemas rules, entry.2.get? Keyword.default.name ≠ none

/-- The schema bears members that are filled in later. -/
def Lasting : Tree → Prop := Throughout LastingRules

/-- What is checked at a level before something is filled in bears it. -/
structure SettledRules (rules : Rules) : Prop where
  /-- Properties and items come after the keywords for all kinds. -/
  parts : (HasDefault rules ∨ ∃ schema ∈ partSchemas rules, Fills schema) →
    Plain rules ∧ ∀ branch ∈ allOfSchemas rules, Lasting branch
  /-- `enum` comes before `allOf`. -/
  enumeration : (∃ branch ∈ allOfSchemas rules, Fills branch) → rules.find? .enumeration = none
  /-- Branches come one after the other. -/
  order : (allOfSchemas rules).Pairwise fun first second => Fills second → Lasting first

/-- The schema bears what it fills in itself. -/
def Settled : Tree → Prop := Throughout SettledRules

/-! ## Level by level -/

section Levels

variable {rules : Rules} {schema lower : Tree} {condition : Rules → Prop}

theorem applied_branch
    (mem : schema ∈ allOfSchemas rules) :
    Applied (.object rules) schema :=
  List.mem_append_left _ mem

theorem applied_part
    (mem : schema ∈ partSchemas rules) :
    Applied (.object rules) schema :=
  List.mem_append_right _ mem

theorem part_of_property
    {entry : String × Tree}
    (mem : entry ∈ propertySchemas rules) :
    entry.2 ∈ partSchemas rules := List.mem_append_left _ (List.mem_map_of_mem mem)

theorem part_of_item
    (mem : schema ∈ itemSchemas rules) :
    schema ∈ partSchemas rules :=
  List.mem_append_right _ mem

theorem Throughout.here
    (h : Throughout condition (.object rules)) :
    condition rules :=
  h rules .refl

theorem Throughout.below
    (h : Throughout condition schema)
    (applied : Applied schema lower) :
    Throughout condition lower :=
  fun rules reached => h rules (.head applied reached)

/-- A condition holds throughout if it does so at a level and throughout what is below. -/
theorem throughout_object :
    Throughout condition (.object rules) ↔
      condition rules ∧ ∀ schema, Applied (.object rules) schema → Throughout condition schema := by
  constructor
  · intro h
    exact ⟨h.here, fun _ applied => h.below applied⟩
  · rintro ⟨here, below⟩ rules' reached
    rcases Relation.ReflTransGen.cases_head reached with same | ⟨schema, applied, reached⟩
    · cases same
      exact here
    · exact below schema applied rules' reached

theorem not_fills_iff :
    ¬ Fills schema ↔ Throughout (fun rules => ¬ HasDefault rules) schema := by
  simp only [Fills, Throughout, not_exists, not_and]

theorem Fills.of_applied
    (applied : Applied schema lower)
    (fills : Fills lower) :
    Fills schema := by
  obtain ⟨rules, reached, has⟩ := fills
  exact ⟨rules, .head applied reached, has⟩

/-- A schema that fills in nothing is settled. -/
theorem settled_of_not_fills
    (still : ¬ Fills schema) :
    Settled schema := by
  intro rules reached
  have stillHere : ¬ Fills (.object rules) :=
    fun ⟨rules', further, has⟩ => still ⟨rules', reached.trans further, has⟩
  refine ⟨?_, ?_, ?_⟩
  · rintro (has | ⟨schema, mem, fills⟩)
    · exact absurd ⟨rules, .refl, has⟩ stillHere
    · exact absurd (fills.of_applied (applied_part mem)) stillHere
  · rintro ⟨branch, mem, fills⟩
    exact absurd (fills.of_applied (applied_branch mem)) stillHere
  · refine List.pairwise_of_forall_mem_list fun _ _ second mem fills => ?_
    exact absurd (fills.of_applied (applied_branch mem)) stillHere

theorem Applied.child
    (h : Applied schema lower) :
    Child schema lower := by
  cases schema with
  | object rules =>
      rcases List.mem_append.mp h with branch | part
      · unfold allOfSchemas at branch
        split at branch
        · rename_i found
          exact .branch (by decide) found branch
        · cases branch
      · rcases List.mem_append.mp part with property | item
        · obtain ⟨entry, mem, rfl⟩ := List.mem_map.mp property
          unfold propertySchemas at mem
          split at mem
          · rename_i found
            exact .property found mem
          · cases mem
        · unfold itemSchemas at item
          split at item
          · rename_i found
            rw [List.mem_singleton.mp item]
            exact .items found
          · rename_i found
            split at item
            · rename_i additional
              rcases List.mem_append.mp item with own | rest
              · exact .item found own
              · rw [List.mem_singleton.mp rest]
                exact .additionalItems found additional
            · exact .item found item
          · cases item
  | null | boolean | number | string | array =>
      cases h

/-! ## Order -/

theorem ordered_properties
    (ordered : (Tree.object rules).Ordered) :
    OrderedMembers (propertySchemas rules) := by
  unfold propertySchemas
  split
  · rename_i found
    exact ordered.member found
  · exact .object .nil (by simp)

theorem ordered_default
    (ordered : schema.Ordered) :
    OrderedDefault schema := by
  intro value default
  cases schema with
  | object members =>
      exact ordered.member default
  | null | boolean | number | string | array =>
      cases default

theorem ordered_items
    (ordered : (Tree.object rules).Ordered)
    (mem : schema ∈ itemSchemas rules) :
    schema.Ordered := by
  unfold itemSchemas at mem
  split at mem
  · rename_i found
    rw [List.mem_singleton.mp mem]
    exact ordered.member found
  · rename_i found
    split at mem
    · rename_i foundRest
      rcases List.mem_append.mp mem with mem | mem
      · exact (ordered.member found).item mem
      · rw [List.mem_singleton.mp mem]
        exact ordered.member foundRest
    · exact (ordered.member found).item mem
  · cases mem

theorem ordered_branches
    (ordered : (Tree.object rules).Ordered)
    (mem : schema ∈ allOfSchemas rules) :
    schema.Ordered := by
  unfold allOfSchemas at mem
  split at mem
  · rename_i found
    exact (ordered.member found).item mem
  · cases mem

theorem ordered_entry
    {members : Members Tree} {entry : String × Tree}
    (ordered : OrderedMembers members)
    (mem : entry ∈ members) :
    entry.2.Ordered := by
  cases ordered with
  | object _ all =>
      exact all entry mem

theorem Applied.ordered
    (h : Applied schema lower)
    (ordered : schema.Ordered) :
    lower.Ordered := by
  cases schema with
  | object rules =>
      rcases List.mem_append.mp h with branch | part
      · exact ordered_branches ordered branch
      · rcases List.mem_append.mp part with property | item
        · obtain ⟨entry, mem, rfl⟩ := List.mem_map.mp property
          exact ordered_entry (ordered_properties ordered) mem
        · exact ordered_items ordered item
  | null | boolean | number | string | array =>
      cases h

end Levels

end Schema
end JsonDoc
