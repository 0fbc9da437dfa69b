import JsonDoc.Proofs.Schema.Positions
import JsonDoc.Proofs.Schema.Refilling
import JsonDoc.Proofs.Schema.Structural
import JsonDoc.Proofs.Tree.Nearness

/-!
# Heedless schemas

A schema is heedless of some keys if it does not look at the members under them: it has neither
properties under these keys nor requires them, and it neither compares nor counts members. It comes
to the same on documents that differ under these keys only, and what it leaves differs there only:
`alike_walk`.
-/

namespace JsonDoc

namespace Check

variable {α β : Type} {R : α → α → Prop} {check first second : Check α} {checks : List (Check α)}
variable {collectAll : Bool}

/-- The check comes to the same verdict on related data, and leaves it related. -/
def Alike (R : α → α → Prop) (check : Check α) : Prop :=
  ∀ a b, R a b → (check a).verdict = (check b).verdict ∧ R (check a).data (check b).data

theorem Looks.alike
    (looks : Looks check)
    (same : ∀ a b, R a b → (check a).verdict = (check b).verdict) :
    Alike R check := by
  intro a b related
  refine ⟨same a b related, ?_⟩
  rw [looks a, looks b]
  exact related

theorem alike_pass :
    Alike R pass := looks_pass.alike fun _ _ _ => rfl

theorem alike_raise
    (e : SchemaError) :
    Alike R (raise e) := (looks_raise e).alike fun _ _ _ => rfl

theorem alike_violate
    (place : Pointer)
    (breach : Breach) :
    Alike R (violate place breach) :=
  (looks_violate place breach).alike fun _ _ _ => rfl

theorem alike_demand
    {condition : α → Bool} {place : Pointer} {breach : α → Breach}
    (same : ∀ a b, R a b → condition a = condition b) :
    Alike R fun data => demand (condition data) place (breach data) data := by
  refine (looks_demand condition place breach).alike fun a b related => ?_
  rw [same a b related]
  unfold demand
  split
  · rfl
  · rfl

theorem alike_ofKeyword
    {value : Except SchemaError (Option β)} {check : β → Check α}
    (h : ∀ b, Alike R (check b)) :
    Alike R (ofKeyword value check) := by
  match value with
  | .error e =>
      exact alike_raise e
  | .ok none =>
      exact alike_pass
  | .ok (some b) =>
      exact h b

theorem alike_all
    (h : ∀ check ∈ checks, Alike R check) :
    Alike R (all collectAll checks) := by
  induction checks with
  | nil =>
      exact alike_pass
  | cons check checks ih =>
      obtain ⟨first, others⟩ := List.forall_mem_cons.mp h
      intro a b related
      obtain ⟨verdict, left⟩ := first a b related
      have goesOn : (check a).goesOn collectAll = (check b).goesOn collectAll := by
        simp only [Outcome.goesOn, verdict]
      rw [all_cons, all_cons, goesOn]
      split
      · obtain ⟨verdict', left'⟩ := ih others _ _ left
        exact ⟨by simp only [Outcome.join, verdict, verdict'], left'⟩
      · exact ⟨verdict, left⟩

theorem alike_whenPassed
    (h : Alike R first)
    (k : Alike R second) :
    Alike R (whenPassed first second) := by
  intro a b related
  obtain ⟨verdict, left⟩ := h a b related
  obtain ⟨verdict', left'⟩ := k _ _ left
  unfold whenPassed
  simp only [verdict]
  split
  · exact ⟨by simp only [Outcome.join, verdict, verdict'], left'⟩
  · exact ⟨verdict, left⟩

theorem alike_eachItem
    {R : Tree → Tree → Prop} {check : Nat → Check Tree}
    (h : ∀ index, Alike R (check index)) :
    ∀ index, Alike (List.Forall₂ R) (eachItem collectAll check index) := by
  intro index items items' related
  induction related generalizing index with
  | nil =>
      exact ⟨rfl, .nil⟩
  | @cons item item' items items' here rest ih =>
      obtain ⟨verdict, left⟩ := h index item item' here
      have goesOn : (check index item).goesOn collectAll =
          (check index item').goesOn collectAll := by
        simp only [Outcome.goesOn, verdict]
      rw [eachItem_cons, eachItem_cons, goesOn]
      split
      · obtain ⟨verdict', left'⟩ := ih (index + 1)
        refine ⟨?_, .cons left left'⟩
        simp only [Outcome.join, Outcome.map, verdict, verdict']
      · exact ⟨verdict, .cons left rest⟩

/-- Branches that are tried out pass alike. -/
theorem firstPassed_alike
    (h : ∀ check ∈ checks, Alike R check)
    {a b : α}
    (related : R a b) :
    ∀ index, (firstPassed a index checks).1 = (firstPassed b index checks).1 := by
  induction checks with
  | nil =>
      exact fun _ => rfl
  | cons check checks ih =>
      obtain ⟨first, others⟩ := List.forall_mem_cons.mp h
      intro index
      simp only [firstPassed, probe, (first a b related).1]
      cases (check b).verdict with
      | error e =>
          rfl
      | ok passed =>
          cases passed with
          | true =>
              rfl
          | false =>
              exact ih others (index + 1)

theorem countPassed_alike
    (h : ∀ check ∈ checks, Alike R check)
    {a b : α}
    (related : R a b) :
    ∀ count, (countPassed a count checks).1 = (countPassed b count checks).1 := by
  induction checks with
  | nil =>
      exact fun _ => rfl
  | cons check checks ih =>
      obtain ⟨first, others⟩ := List.forall_mem_cons.mp h
      intro count
      simp only [countPassed]
      split
      · rfl
      · simp only [probe, (first a b related).1]
        cases (check b).verdict with
        | error e =>
            rfl
        | ok passed =>
            exact ih others _

end Check

namespace Schema

open Check JsonDoc.Tree

variable {engine : Pattern.Engine}

/-- A level does not look at members under some keys. -/
structure HeedlessRules (keys : String → Prop) (rules : Rules) : Prop where
  enumeration : ∀ options, rules.find? .enumeration = some (.array options) →
    ∀ option ∈ options, option.isArray = false ∧ option.isObject = false
  least : rules.find? .minProperties = none
  most : rules.find? .maxProperties = none
  repeating : ¬ Set rules .uniqueItems
  properties : ∀ entry ∈ propertySchemas rules, ¬ keys entry.1
  required : ∀ names name, rules.find? .required = some (.array names) → Tree.string name ∈ names →
    ¬ keys name

/-- The schema does not look at members under some keys, at any position. -/
def Heedless
    (keys : String → Prop) : Tree → Prop :=
  Everywhere (HeedlessRules keys)

/-- Walking with a schema comes to the same on data that differs under free keys only. -/
def WalkAlike
    (walk : Walk)
    (free held : String → Prop)
    (schema : Tree) : Prop :=
  ∀ path place, Alike (Near free held) (walk schema path place)

section Levels

variable {walk : Walk} {rules : Rules} {path place : Pointer} {collectAll : Bool}
variable {free held : String → Prop}

/-! ## Keywords for all kinds -/

theorem hasType_of_near
    {a b : Tree}
    (near : Near free held a b)
    (name : String) :
    Rules.hasType a name = Rules.hasType b name := by
  cases near <;> rfl

/-- A scalar is equal to both of two near trees, or to none of them. -/
theorem approxEq_of_near
    {a b scalar : Tree}
    (noArray : scalar.isArray = false)
    (noObject : scalar.isObject = false)
    (near : Near free held a b) :
    scalar.approxEq a = scalar.approxEq b := by
  cases near with
  | null | boolean | number | string =>
      rfl
  | array | object =>
      cases scalar with
      | null | boolean | number | string =>
          rfl
      | array =>
          cases noArray
      | object =>
          cases noObject

theorem alike_enumCheck
    (heedless : HeedlessRules free rules) :
    Alike (Near free held) (enumCheck rules path place) := by
  unfold enumCheck
  cases found : rules.find? .enumeration with
  | none =>
      exact alike_pass
  | some value =>
      cases value with
      | array options =>
          have scalars := heedless.enumeration options found
          refine alike_demand fun a b near => ?_
          rw [Bool.eq_iff_iff, List.any_eq_true, List.any_eq_true]
          refine exists_congr fun option => and_congr_right fun mem => ?_
          obtain ⟨noArray, noObject⟩ := scalars option mem
          rw [approxEq_of_near noArray noObject near]
      | null | boolean | number | string | object =>
          exact alike_raise _

theorem alike_typeCheck :
    Alike (Near free held) (typeCheck rules path place) := by
  unfold typeCheck
  split
  · exact alike_pass
  · rename_i value _
    unfold typed
    cases Rules.types place value with
    | error e =>
        exact alike_raise e
    | ok names =>
        refine alike_demand fun a b near => ?_
        exact congrArg names.any (funext (hasType_of_near near))

theorem verdict_passesAll
    (checks : List (Check Tree))
    (node : Tree) :
    (passesAll collectAll path checks node).verdict =
      (Check.all collectAll checks node).verdict := by
  unfold passesAll
  simp only
  split <;> rfl

variable {R : Tree → Tree → Prop} {checks : List (Check Tree)}

theorem alike_passesAll
    (h : ∀ check ∈ checks, Alike R check) :
    Alike R (passesAll collectAll path checks) := by
  intro a b related
  rw [verdict_passesAll, verdict_passesAll, data_passesAll, data_passesAll]
  exact alike_all h a b related

theorem alike_passesAny
    (h : ∀ check ∈ checks, Alike R check) :
    Alike R (passesAny path checks) := by
  refine (looks_passesAny checks).alike fun a b related => ?_
  rw [verdict_passesAny, verdict_passesAny, firstPassed_alike h related 0]

theorem alike_passesNone
    (h : ∀ check ∈ checks, Alike R check) :
    Alike R (passesNone path checks) := by
  refine (looks_passesNone checks).alike fun a b related => ?_
  rw [verdict_passesNone, verdict_passesNone, firstPassed_alike h related 0]

theorem alike_passesOne
    (h : ∀ check ∈ checks, Alike R check) :
    Alike R (passesOne path checks) := by
  refine (looks_passesOne checks).alike fun a b related => ?_
  rw [verdict_passesOne, verdict_passesOne, countPassed_alike h related 0]

section Walks

variable (below : ∀ schema, Child (.object rules) schema → WalkAlike walk free held schema)

include below

theorem alike_combined
    {combine : List (Check Tree) → Check Tree} {keyword : Keyword}
    (combines : keyword ∈ [.allOf, .anyOf, .oneOf, .not])
    (h : ∀ checks, (∀ check ∈ checks, Alike (Near free held) check) →
      Alike (Near free held) (combine checks)) :
    Alike (Near free held) (combined walk rules path place keyword combine) := by
  unfold combined
  cases found : rules.find? keyword with
  | none =>
      exact alike_pass
  | some value =>
      cases read : Rules.schemas keyword place value with
      | error e =>
          simp only [read]
          exact alike_raise e
      | ok schemas =>
          simp only [read]
          have listed := branches_of_schemas found read
          exact h _ (forall_of_walk (branches_walk walk keyword schemas path place)
            fun schema mem place => below schema (listed.child mem combines) path place)

theorem alike_generalChecks
    (heedless : HeedlessRules free rules) :
    Alike (Near free held)
      (Check.all collectAll (generalChecks collectAll walk rules path place)) := by
  rw [generalChecks_eq]
  refine alike_all ?_
  simp only [List.forall_mem_cons]
  exact ⟨alike_enumCheck heedless, alike_typeCheck,
    alike_combined below (by decide) fun _ => alike_passesAll,
    alike_combined below (by decide) fun _ => alike_passesAny,
    alike_combined below (by decide) fun _ => alike_passesOne,
    alike_combined below (by decide) fun _ => alike_passesNone, by simp⟩

/-! ## Objects -/

omit below in
/-- The same default is filled in on both sides. -/
theorem near_fillMember
    {key : String} {schema : Tree}
    (kept : ¬ free key)
    {members members' : Members Tree}
    (near : MembersNear free held members members') :
    MembersNear free held (fillMember key schema path members).1
      (fillMember key schema path members').1 := by
  unfold fillMember
  rw [near.contains kept]
  split
  · exact near
  · split
    · exact near
    · exact near.insert key _

omit below in
theorem alike_property
    {key : String} {schema : Tree}
    (kept : ¬ free key)
    (h : WalkAlike walk free held schema) :
    Alike (MembersNear free held) (property walk key schema path place) := by
  intro members members' near
  have filled : MembersNear free held (fillMember key schema path members).1
      (fillMember key schema path members').1 := near_fillMember kept near
  have there := filled.contains kept
  unfold Members.contains at there
  cases found : (fillMember key schema path members).1.get? key with
  | none =>
      rw [found, Option.isSome_none] at there
      have found' : (fillMember key schema path members').1.get? key = none := by
        simpa using there.symm
      rw [property_of_missing found, property_of_missing found']
      exact ⟨rfl, filled⟩
  | some child =>
      rw [found, Option.isSome_some] at there
      obtain ⟨child', found'⟩ := Option.isSome_iff_exists.mp there.symm
      obtain ⟨verdict, left⟩ := h (path.child key)
        ((place.child Keyword.properties.name).child key) child child'
          (filled.near kept found found')
      rw [property_of_get? found, property_of_get? found']
      refine ⟨verdict, filled.replace left fun isHeld => ?_⟩
      -- where nothing differs, the same is left
      have same := filled.get?_held isHeld
      rw [found, found', Option.some.injEq] at same
      rw [same]

theorem alike_properties
    (heedless : HeedlessRules free rules) :
    Alike (MembersNear free held) (properties collectAll walk rules path place) := by
  rcases properties_cases collectAll walk rules path place with eq | ⟨e, eq⟩
  · rw [eq]
    refine alike_all (List.forall_mem_map.mpr fun entry mem => ?_)
    exact alike_property (heedless.properties entry mem)
      (below entry.2 (applied_part (part_of_property mem)).child)
  · rw [eq]
    exact alike_raise e

omit below in
theorem alike_required
    (heedless : HeedlessRules free rules) :
    Alike (MembersNear free held) (required collectAll rules path place) := by
  unfold required
  split
  · exact alike_pass
  · rename_i names found
    refine alike_all (List.forall_mem_map.mpr fun value mem => ?_)
    cases value with
    | string name =>
        exact alike_demand fun a b near => near.contains (heedless.required names name found mem)
    | null | boolean | number | array | object =>
        exact alike_raise _
  · exact alike_raise _

theorem alike_objectCheck
    (heedless : HeedlessRules free rules) :
    Alike (MembersNear free held) (objectCheck collectAll walk rules path place) := by
  have least : rules.count .minProperties place = .ok none := by
    simp only [Rules.count, heedless.least]
  have most : rules.count .maxProperties place = .ok none := by
    simp only [Rules.count, heedless.most]
  unfold objectCheck
  split
  · exact alike_raise _
  · rw [least, most]
    refine alike_all ?_
    simp only [List.forall_mem_cons]
    exact ⟨alike_properties below heedless, alike_required heedless, alike_pass, alike_pass,
      by simp⟩

/-! ## Arrays -/

theorem alike_itemCheck
    {check : Check Tree}
    (isItemCheck : ItemCheck walk rules check) :
    Alike (Near free held) check := by
  cases isItemCheck with
  | walk path place isSchema =>
      exact below _ (applied_part (part_of_item isSchema)).child path place
  | pass =>
      exact alike_pass
  | violate _ _ =>
      exact alike_violate _ _

theorem alike_governedItems
    {schemas : List Tree}
    (found : rules.find? .items = some (.array schemas)) :
    Alike (List.Forall₂ (Near free held)) (governedItems collectAll walk schemas path place) := by
  intro items items' near
  have each : Alike (List.Forall₂ (Near free held))
      (eachItem collectAll (positionalCheck walk rules schemas path place) 0) :=
    alike_eachItem (fun index => alike_itemCheck below (itemCheck_positional found index)) 0
  obtain ⟨verdict, left⟩ := each _ _ (List.forall₂_take schemas.length near)
  rw [governedItems_eq rules, governedItems_eq rules]
  exact ⟨verdict, List.rel_append left (List.forall₂_drop schemas.length near)⟩

theorem alike_extraItems
    {schemas : List Tree}
    (found : rules.find? .items = some (.array schemas)) :
    Alike (List.Forall₂ (Near free held))
      (extraItems collectAll walk rules schemas.length path place) := by
  intro items items' near
  unfold extraItems
  rw [near.length_eq]
  split
  · exact ⟨rfl, near⟩
  · split
    · exact ⟨rfl, near⟩
    · exact ⟨rfl, near⟩
    · exact ⟨rfl, near⟩
    · rename_i schema additional
      have isItem : Tree.object schema ∈ itemSchemas rules := by
        simp [itemSchemas, found, additional]
      have each : Alike (List.Forall₂ (Near free held))
          (eachItem collectAll (fun index => walk (.object schema) (path.item index)
            (place.child Keyword.additionalItems.name)) schemas.length) :=
        alike_eachItem (fun _ => below _ (applied_part (part_of_item isItem)).child _ _) _
      obtain ⟨verdict, left⟩ := each _ _ (List.forall₂_drop schemas.length near)
      exact ⟨verdict, List.rel_append (List.forall₂_take schemas.length near) left⟩
    · exact ⟨rfl, near⟩

theorem alike_itemsCheck :
    Alike (List.Forall₂ (Near free held)) (itemsCheck collectAll walk rules path place) := by
  unfold itemsCheck
  split
  · exact alike_pass
  · rename_i found
    exact alike_eachItem (fun index => below _ (.items found) _ _) 0
  · rename_i found
    refine alike_all ?_
    simp only [List.forall_mem_cons]
    exact ⟨alike_governedItems below found, alike_extraItems below found, by simp⟩
  · exact alike_raise _

omit below in
theorem alike_unique
    (heedless : HeedlessRules free rules) :
    Alike (List.Forall₂ (Near free held)) (unique rules path place) := by
  refine looks_unique.alike fun a b _ => ?_
  unfold unique
  split
  · rfl
  · rfl
  · rename_i set
    exact absurd set heedless.repeating
  · rfl

theorem alike_arrayCheck
    (heedless : HeedlessRules free rules) :
    Alike (List.Forall₂ (Near free held)) (arrayCheck collectAll walk rules path place) := by
  have length (items items' : List Tree) (near : List.Forall₂ (Near free held) items items') :
      items.length = items'.length := near.length_eq
  unfold arrayCheck
  refine alike_all ?_
  simp only [List.forall_mem_cons]
  refine ⟨alike_itemsCheck below, alike_ofKeyword fun n => alike_demand fun a b near => ?_,
    alike_ofKeyword fun n => alike_demand fun a b near => ?_, alike_unique heedless, by simp⟩
  · rw [length a b near]
  · rw [length a b near]

/-! ## Levels -/

theorem alike_kindCheck
    (heedless : HeedlessRules free rules) :
    Alike (Near free held) (kindCheck engine collectAll walk rules path place) := by
  intro node node' near
  cases node with
  | object members =>
      cases near with
      | object keys same near =>
          exact alike_objectCheck below heedless members _ (.object keys same near)
  | array items =>
      obtain ⟨items', rfl, each⟩ := near_array_iff.mp near
      obtain ⟨verdict, left⟩ := alike_arrayCheck below heedless items items' each
      exact ⟨verdict, near_array_iff.mpr ⟨_, rfl, left⟩⟩
  | null | boolean | number | string =>
      cases near
      exact ⟨rfl, .refl _⟩

theorem alike_level
    (heedless : HeedlessRules free rules) :
    Alike (Near free held) (level engine collectAll walk rules path place) :=
  alike_whenPassed (alike_generalChecks below heedless) (alike_kindCheck below heedless)

end Walks

end Levels

/-- Walking with a heedless schema comes to the same whatever stands under the free keys. -/
theorem alike_walk
    {options : ValidatorOptions} {free held : String → Prop}
    (height depth : Nat)
    {schema : Tree}
    (heedless : Heedless free schema) :
    WalkAlike (walk engine options height depth) free held schema := by
  intro path place
  refine walk_induction_at
    (fun schema _ _ check => Heedless free schema → Alike (Near free held) check)
    (fun _ _ _ _ => alike_pass) (fun _ _ _ _ _ => alike_raise _) (fun _ _ _ _ _ _ => alike_raise _)
    ?_ height depth schema path place heedless
  intro height depth rules path place below heedless
  exact alike_level (fun schema child path place => below schema path place (heedless.below child))
    heedless.here

end Schema
end JsonDoc
