import JsonDoc.Proofs.Schema.Faults
import JsonDoc.Proofs.Schema.FillingLevel
import JsonDoc.Proofs.Schema.Positions
import JsonDoc.Proofs.Schema.Relating

/-!
# Related levels

Two checks of one level that differ only in what happens below it come to related outcomes if the
walks below do, for any relation that checks respect: `Respects.level`. The errors that the level
itself can raise are about its keywords, and each schema below stands where `Below` says.

`levelBy` takes a walk of its own for the branches that are probed.
-/

namespace JsonDoc
namespace Schema

open Check Outcome JsonDoc.Tree

variable {engine : Pattern.Engine}

/-! ## Levels with a walk for probed branches -/

/-- The keywords for nodes of all kinds, with a walk of its own for the branches that are probed. -/
def generalChecksBy
    (collectAll : Bool)
    (walk probed : Walk)
    (rules : Rules)
    (path place : Pointer) : List (Check Tree) :=
  [enumCheck rules path place, typeCheck rules path place,
   combined walk rules path place .allOf (passesAll collectAll path),
   combined probed rules path place .anyOf (passesAny path),
   combined probed rules path place .oneOf (passesOne path),
   combined probed rules path place .not (passesNone path)]

/-- The check of one schema object, with a walk of its own for the branches that are probed. -/
def levelBy
    (engine : Pattern.Engine)
    (collectAll : Bool)
    (walk probed : Walk)
    (rules : Rules)
    (path place : Pointer) : Check Tree :=
  whenPassed (Check.all collectAll (generalChecksBy collectAll walk probed rules path place))
    (kindCheck engine collectAll walk rules path place)

/-- The walk that probes branches is the one for everything else. -/
theorem level_eq
    (collectAll : Bool)
    (walk : Walk)
    (rules : Rules)
    (path place : Pointer) :
    level engine collectAll walk rules path place =
      levelBy engine collectAll walk walk rules path place := rfl

/-- The schemas directly below a level, with the pointers by which the walk knows them if it knows
the level by `place`. -/
inductive Below (rules : Rules) (place : Pointer) : Pointer → Tree → Prop
  | branch {keyword : Keyword} {branches : List Tree} {i : Nat} {schema : Tree} :
      keyword ∈ [.allOf, .anyOf, .oneOf, .not] →
      rules.find? keyword = some (.array branches) → branches[i]? = some schema →
      Below rules place ((place.child keyword.name).item i) schema
  | negated {schema : Rules} :
      rules.find? .not = some (.object schema) →
      Below rules place ((place.child Keyword.not.name).item 0) (.object schema)
  | property {schemas : Members Tree} {key : String} {schema : Tree} :
      rules.find? .properties = some (.object schemas) → (key, schema) ∈ schemas →
      Below rules place ((place.child Keyword.properties.name).child key) schema
  | items {schema : Rules} :
      rules.find? .items = some (.object schema) →
      Below rules place (place.child Keyword.items.name) (.object schema)
  | item {schemas : List Tree} {i : Nat} {schema : Tree} :
      rules.find? .items = some (.array schemas) → schemas[i]? = some schema →
      Below rules place ((place.child Keyword.items.name).item i) schema
  | additionalItems {schemas : List Tree} {schema : Rules} :
      rules.find? .items = some (.array schemas) →
      rules.find? .additionalItems = some (.object schema) →
      Below rules place (place.child Keyword.additionalItems.name) (.object schema)

theorem Below.child
    {rules : Rules} {place place' : Pointer} {schema : Tree}
    (below : Below rules place place' schema) :
    Child (.object rules) schema := by
  cases below with
  | branch combines found here =>
      exact .branch combines found (List.mem_of_getElem? here)
  | negated found =>
      exact .negated found
  | property found mem =>
      exact .property found mem
  | items found =>
      exact .items found
  | item found here =>
      exact .item found (List.mem_of_getElem? here)
  | additionalItems found additional =>
      exact .additionalItems found additional

section Transport

variable {collects collects' : Bool} {Raised : SchemaError → Prop}
variable {R : ∀ {α : Type}, Outcome α → Outcome α → Prop}
variable {Q : Outcome Tree → Outcome Tree → Prop}
variable (respects : Respects collects collects' Raised R Q)

variable {walk walk' probe probe' : Walk} {rules : Rules} {path place : Pointer}

-- an error is about a keyword of this level, or comes from a schema below
variable (here : ∀ e, Faulty rules place e → Raised e)
variable (walked : ∀ schema path place', Below rules place place' schema →
  Related R (walk schema path place') (walk' schema path place'))
variable (probed : ∀ schema path place', Below rules place place' schema →
  Related Q (probe schema path place') (probe' schema path place'))

namespace Respects

include respects here

/-! ## Keywords for all kinds -/

theorem enumCheck :
    Related R (enumCheck rules path place) (enumCheck rules path place) := by
  unfold Schema.enumCheck
  split
  · exact respects.related_pass
  · rename_i value found
    cases value with
    | array options =>
        exact respects.related_demand _ path _
    | null | boolean | number | string | object =>
        exact respects.related_raise (here _ (faulty_invalid found _))

theorem typeCheck :
    Related R (typeCheck rules path place) (typeCheck rules path place) := by
  unfold Schema.typeCheck
  split
  · exact respects.related_pass
  · rename_i value found
    unfold typed
    cases read : Rules.types place value with
    | error e =>
        exact respects.related_raise (here e (faulty_types found read))
    | ok names =>
        exact respects.related_demand _ path _

/-- Schemas listed under a keyword, walked in one of two ways. -/
theorem combined
    {S : Outcome Tree → Outcome Tree → Prop} {keyword : Keyword}
    {combine combine' : List (Check Tree) → Check Tree}
    (combines : keyword ∈ [.allOf, .anyOf, .oneOf, .not])
    (below : ∀ schema path place', Below rules place place' schema →
      Related S (walk schema path place') (walk' schema path place'))
    (h : ∀ checks checks', List.Forall₂ (Related S) checks checks' →
      Related R (combine checks) (combine' checks')) :
    Related R (combined walk rules path place keyword combine)
      (combined walk' rules path place keyword combine') := by
  unfold Schema.combined
  cases found : rules.find? keyword with
  | none =>
      exact respects.related_pass
  | some value =>
      cases read : Rules.schemas keyword place value with
      | error e =>
          simp only [read]
          exact respects.related_raise (here e (faulty_schemas found read))
      | ok schemas =>
          simp only [read]
          refine h _ _ (List.forall₂_iff_get.mpr ⟨by simp [branches], fun i bound _ => ?_⟩)
          have inside : i < schemas.length := by simpa [branches] using bound
          have branch : schemas[i]? = some schemas[i] := List.getElem?_eq_getElem inside
          simp only [branches, List.get_eq_getElem, List.getElem_mapIdx]
          refine below _ _ _ ?_
          rcases branches_of_schemas found read with listed | ⟨rfl, members, alone, rfl⟩
          · exact .branch combines listed branch
          · obtain rfl : i = 0 := by simpa using inside
            exact .negated alone

include walked probed in
theorem generalChecks :
    Related R (Check.all collects (generalChecksBy collects walk probe rules path place))
      (Check.all collects' (generalChecksBy collects' walk' probe' rules path place)) := by
  refine respects.related_all (.cons ?_ (.cons ?_ (.cons ?_ (.cons ?_ (.cons ?_ (.cons ?_ .nil))))))
  · exact respects.enumCheck here
  · exact respects.typeCheck here
  · exact respects.combined here (by decide) walked fun _ _ => respects.related_passesAll
  · exact respects.combined here (by decide) probed fun _ _ => respects.related_passesAny
  · exact respects.combined here (by decide) probed fun _ _ => respects.related_passesOne
  · exact respects.combined here (by decide) probed fun _ _ => respects.related_passesNone

/-! ## Objects -/

omit here in
/-- A missing member is filled in before anything is checked. -/
theorem property
    {key : String} {schema : Tree}
    (h : ∀ path,
      Related R (walk schema path ((place.child Keyword.properties.name).child key))
        (walk' schema path ((place.child Keyword.properties.name).child key))) :
    Related R (property walk key schema path place) (property walk' key schema path place) := by
  intro members
  unfold Schema.property
  simp only
  cases (fillMember key schema path members).1.get? key with
  | none =>
      exact respects.pass _
  | some child =>
      exact respects.after _ (respects.map _ (h _ child))

include walked in
theorem properties :
    Related R (properties collects walk rules path place)
      (properties collects' walk' rules path place) := by
  unfold Schema.properties
  split
  · exact respects.related_pass
  · rename_i schemas found
    refine respects.related_all (List.forall₂_map_left_iff.mpr (List.forall₂_map_right_iff.mpr
      (List.forall₂_same.mpr ?_)))
    rintro ⟨key, schema⟩ mem
    exact respects.property fun _ => walked _ _ _ (.property found mem)
  · rename_i found
    exact respects.related_raise (here _ (faulty_invalid found _))

theorem required :
    Related R (required collects rules path place) (required collects' rules path place) := by
  unfold Schema.required
  split
  · exact respects.related_pass
  · rename_i names found
    refine respects.related_all (List.forall₂_map_left_iff.mpr (List.forall₂_map_right_iff.mpr
      (List.forall₂_same.mpr fun value _ => ?_)))
    cases value with
    | string name =>
        exact respects.related_demand (fun members : Members Tree => members.contains name) path
          fun _ => .missing name
    | null | boolean | number | array | object =>
        exact respects.related_raise (here _ (faulty_invalid found _))
  · rename_i found
    exact respects.related_raise (here _ (faulty_invalid found _))

/-- A demand on a count. -/
theorem count
    {α : Type} {keyword : Keyword}
    (condition : Nat → α → Bool)
    (breach : Nat → α → Breach) :
    Related R (Check.ofKeyword (rules.count keyword place) fun bound data =>
        Check.demand (condition bound data) path (breach bound data) data)
      (Check.ofKeyword (rules.count keyword place) fun bound data =>
        Check.demand (condition bound data) path (breach bound data) data) :=
  respects.related_ofKeyword (fun e malformed => here e (faulty_count malformed))
    fun bound _ => respects.related_demand (condition bound) path (breach bound)

include walked in
theorem objectCheck :
    Related R (objectCheck collects walk rules path place)
      (objectCheck collects' walk' rules path place) := by
  unfold Schema.objectCheck
  split
  · rename_i keyword found
    have present : (rules.find? keyword).isSome = true := by simpa using List.find?_some found
    exact respects.related_raise (here _ ⟨keyword, present, Or.inl rfl⟩)
  · exact respects.related_all (.cons (respects.properties here walked)
      (.cons (respects.required here) (.cons (respects.count here _ _)
        (.cons (respects.count here _ _) .nil))))

/-! ## Arrays -/

omit here in
include walked in
theorem governedItems
    {schemas : List Tree}
    (found : rules.find? .items = some (.array schemas)) :
    Related R (governedItems collects walk schemas path place)
      (governedItems collects' walk' schemas path place) := by
  intro items
  refine respects.map _ (respects.related_eachItem (fun index => ?_) 0 _)
  split
  · exact respects.related_pass
  · rename_i own
    exact walked _ _ _ (.item found own)

omit here in
include walked in
theorem extraItems
    {schemas : List Tree}
    (found : rules.find? .items = some (.array schemas)) :
    Related R (extraItems collects walk rules schemas.length path place)
      (extraItems collects' walk' rules schemas.length path place) := by
  intro items
  unfold Schema.extraItems
  split
  · exact respects.pass items
  · split
    · exact respects.pass items
    · exact respects.pass items
    · exact respects.violate path _ items
    · rename_i additional
      exact respects.map _ (respects.related_eachItem
        (fun _ => walked _ _ _ (.additionalItems found additional)) _ _)
    · exact respects.violate path _ items

include walked in
theorem itemsCheck :
    Related R (itemsCheck collects walk rules path place)
      (itemsCheck collects' walk' rules path place) := by
  unfold Schema.itemsCheck
  split
  · exact respects.related_pass
  · rename_i found
    exact respects.related_eachItem (fun _ => walked _ _ _ (.items found)) 0
  · rename_i found
    exact respects.related_all (.cons (respects.governedItems walked found)
      (.cons (respects.extraItems walked found) .nil))
  · rename_i found
    exact respects.related_raise (here _ (faulty_invalid found _))

theorem unique :
    Related R (unique rules path place) (unique rules path place) := by
  intro items
  unfold Schema.unique
  split
  · exact respects.pass items
  · exact respects.pass items
  · split
    · exact respects.pass items
    · exact respects.violate path _ items
  · rename_i found
    exact respects.raise _ items (here _ (faulty_invalid found _))

include walked in
theorem arrayCheck :
    Related R (arrayCheck collects walk rules path place)
      (arrayCheck collects' walk' rules path place) :=
  respects.related_all (.cons (respects.itemsCheck here walked)
    (.cons (respects.count here _ _) (.cons (respects.count here _ _)
      (.cons (respects.unique here) .nil))))

/-! ## Scalars -/

theorem matching
    (content : String) :
    Related R (matching engine rules content path place)
      (matching engine rules content path place) := by
  unfold Schema.matching
  split
  · exact respects.related_pass
  · rename_i source found
    simp only
    split
    · exact respects.related_raise (here _ (faulty_invalid found _))
    · exact respects.related_demand (fun _ => _) path fun _ => _
  · rename_i found
    exact respects.related_raise (here _ (faulty_invalid found _))

theorem stringCheck
    (content : String) :
    Related R (stringCheck engine collects rules content path place)
      (stringCheck engine collects' rules content path place) :=
  respects.related_all (.cons (respects.count here (fun _ _ => _) fun _ _ => _)
    (.cons (respects.count here (fun _ _ => _) fun _ _ => _)
      (.cons (respects.matching here content) .nil)))

theorem numberCheck
    (n : Binary64) :
    Related R (numberCheck collects rules n path place)
      (numberCheck collects' rules n path place) := by
  refine respects.related_all (.cons ?_ (.cons ?_ (.cons ?_ .nil)))
  · refine respects.related_ofKeyword (fun e malformed => here e (faulty_number malformed)) ?_
    intro divisor read
    obtain ⟨value, found⟩ := find?_of_number read
    split
    · exact respects.related_raise (here _ (faulty_invalid found _))
    · exact respects.related_demand (fun _ => _) path fun _ => _
  · exact respects.related_ofKeyword (fun e malformed => here e (faulty_bound malformed))
      fun _ _ => respects.related_demand (fun _ => _) path fun _ => _
  · exact respects.related_ofKeyword (fun e malformed => here e (faulty_bound malformed))
      fun _ _ => respects.related_demand (fun _ => _) path fun _ => _

/-! ## One level -/

include walked in
theorem kindCheck :
    Related R (kindCheck engine collects walk rules path place)
      (kindCheck engine collects' walk' rules path place) := by
  intro node
  cases node with
  | object members =>
      exact respects.map _ (respects.objectCheck here walked members)
  | array items =>
      exact respects.map _ (respects.arrayCheck here walked items)
  | string content =>
      exact respects.stringCheck here content _
  | number n =>
      exact respects.numberCheck here n _
  | null | boolean =>
      exact respects.pass _

include walked probed in
/-- One level comes to related outcomes if the walks below it do. -/
theorem level :
    Related R (levelBy engine collects walk probe rules path place)
      (levelBy engine collects' walk' probe' rules path place) :=
  respects.related_whenPassed (respects.generalChecks here walked probed)
    (respects.kindCheck here walked)

end Respects

end Transport

end Schema
end JsonDoc
