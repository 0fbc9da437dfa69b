import JsonDoc.Proofs.Schema.Raising
import JsonDoc.Proofs.Schema.Refilling
import JsonDoc.Proofs.Tree.Pointer

/-!
# Schema errors point at their keyword

An error about a keyword tells where the schema object stands that holds the keyword, and an error
about a schema that is not an object tells where that schema stands: `check_fault_place`.

`Stands` says by which pointer the walk knows a schema. The pointer leads to the schema, but for
what is below a single schema under `not`: the walk counts that one as the first of a list, and
there is no list. `check_fault_place_negated` is such an error.
-/

namespace JsonDoc

/-- The node is an object with the keyword, or is no object where the keyword is for a schema as a
whole. -/
def Keyword.BlamedOn (keyword : Keyword) (node : Tree) : Prop :=
  (∃ members : Members Tree, node = .object members ∧ members.contains keyword.name = true) ∨
    (keyword = .schema ∧ node.isObject = false)

namespace Schema

open Check JsonDoc.Tree

variable {engine : Pattern.Engine}

/-! ## Where schemas stand -/

/-- The pointer by which the walk knows a schema below the root. -/
inductive Stands (root : Tree) : Pointer → Tree → Prop
  | root : Stands root Pointer.root root
  | branch {place : Pointer} {rules : Rules} {keyword : Keyword} {branches : List Tree} {i : Nat}
      {schema : Tree} :
      Stands root place (.object rules) → keyword ∈ [.allOf, .anyOf, .oneOf, .not] →
      rules.find? keyword = some (.array branches) → branches[i]? = some schema →
      Stands root ((place.child keyword.name).item i) schema
  /-- A single schema under `not` is known as the first of a list. -/
  | negated {place : Pointer} {rules schema : Rules} :
      Stands root place (.object rules) → rules.find? .not = some (.object schema) →
      Stands root ((place.child Keyword.not.name).item 0) (.object schema)
  | property {place : Pointer} {rules : Rules} {schemas : Members Tree} {key : String}
      {schema : Tree} :
      Stands root place (.object rules) → rules.find? .properties = some (.object schemas) →
      (key, schema) ∈ schemas →
      Stands root ((place.child Keyword.properties.name).child key) schema
  | items {place : Pointer} {rules schema : Rules} :
      Stands root place (.object rules) → rules.find? .items = some (.object schema) →
      Stands root (place.child Keyword.items.name) (.object schema)
  | item {place : Pointer} {rules : Rules} {schemas : List Tree} {i : Nat} {schema : Tree} :
      Stands root place (.object rules) → rules.find? .items = some (.array schemas) →
      schemas[i]? = some schema →
      Stands root ((place.child Keyword.items.name).item i) schema
  | additionalItems {place : Pointer} {rules : Rules} {schemas : List Tree} {schema : Rules} :
      Stands root place (.object rules) → rules.find? .items = some (.array schemas) →
      rules.find? .additionalItems = some (.object schema) →
      Stands root (place.child Keyword.additionalItems.name) (.object schema)

theorem Below.stands
    {root : Tree} {rules : Rules} {place place' : Pointer} {schema : Tree}
    (below : Below rules place place' schema)
    (stands : Stands root place (.object rules)) :
    Stands root place' schema := by
  cases below with
  | branch combines found here =>
      exact .branch stands combines found here
  | negated found =>
      exact .negated stands found
  | property found mem =>
      exact .property stands found mem
  | items found =>
      exact .items stands found
  | item found here =>
      exact .item stands found here
  | additionalItems found additional =>
      exact .additionalItems stands found additional

/-- No single schema stands under `not`, at any position. -/
def ListsNegated : Tree → Prop := Everywhere fun rules => negatedSchemas rules = []

namespace Stands

variable {root schema : Tree} {place : Pointer}

theorem position
    (h : Stands root place schema) :
    Position root schema := by
  induction h with
  | root =>
      exact .root
  | branch _ combines found here ih =>
      exact .child ih (.branch combines found (List.mem_of_getElem? here))
  | negated _ found ih =>
      exact .child ih (.negated found)
  | property _ found mem ih =>
      exact .child ih (.property found mem)
  | items _ found ih =>
      exact .child ih (.items found)
  | item _ found here ih =>
      exact .child ih (.item found (List.mem_of_getElem? here))
  | additionalItems _ found additional ih =>
      exact .child ih (.additionalItems found additional)

/-- The pointer leads to the schema. -/
theorem leads
    (h : Stands root place schema)
    (ordered : root.Ordered)
    (lists : ListsNegated root) :
    root.at? place = some schema := by
  -- a keyword, and an index or a key where schemas are listed
  have below {place : Pointer} {rules : Rules} {keyword : Keyword} {value : Tree}
      (leads : root.at? place = some (.object rules)) (found : rules.find? keyword = some value) :
      root.at? (place.child keyword.name) = some value := by
    rw [at?_child, leads]
    exact found
  have inArray {place : Pointer} {items : List Tree} {i : Nat} {item : Tree}
      (leads : root.at? place = some (.array items)) (here : items[i]? = some item) :
      root.at? (place.item i) = some item := by
    rw [Pointer.item, at?_child, leads, Option.bind_some, child?_item]
    exact here
  induction h with
  | root =>
      rfl
  | branch _ _ found here ih =>
      exact inArray (below ih found) here
  | negated stands found _ =>
      have none := lists _ stands.position
      simp [negatedSchemas, found] at none
  | property stands found mem ih =>
      rw [at?_child, below ih found]
      have sorted := ((stands.position.ordered ordered).member found).sorted
      exact sorted.get?_of_mem mem
  | items _ found ih =>
      exact below ih found
  | item _ found here ih =>
      exact inArray (below ih found) here
  | additionalItems _ _ additional ih =>
      exact below ih additional

end Stands

/-! ## Walks -/

/-- Walking raises errors about keywords of the schemas at and below the one it walks with, and
about those of them that are no objects. -/
theorem raises_walk
    {options : ValidatorOptions}
    (root : Tree)
    (height depth : Nat)
    {schema : Tree}
    (path : Pointer)
    {place : Pointer}
    (stands : Stands root place schema) :
    Raises (fun e => ∀ keyword, e.keyword? = some keyword → ∃ place node,
      e.IsAt keyword place ∧ Stands root place node ∧ keyword.BlamedOn node)
      (walk engine options height depth schema path place) := by
  refine walk_induction_at
    (fun schema _ place check => Stands root place schema → Raises _ check)
    (fun _ _ _ _ => raises_pass) (fun _ _ _ _ _ => raises_raise nofun) ?_ ?_
    height depth schema path place stands
  · rintro schema path place kind noObject stands
    refine raises_raise ?_
    rintro _ ⟨⟩
    exact ⟨place, schema, Or.inr ⟨_, rfl⟩, stands, Or.inr ⟨rfl, noObject⟩⟩
  · intro height depth rules path place below stands
    refine raises_level ?_ fun schema path place' lower =>
      below schema path place' (lower.stands stands)
    rintro e ⟨keyword, present, isAt⟩ keyword' named
    obtain rfl : keyword = keyword' := by
      rcases isAt with rfl | ⟨_, rfl⟩ <;> exact Option.some.inj named
    exact ⟨place, .object rules, isAt, stands, Or.inl ⟨rules, rfl, present⟩⟩

end Schema

namespace Validator

open Schema

variable {engine : Pattern.Engine}

/-- The path of an error about a keyword is a hash and the text of the pointer by which the walk
knows a schema that holds the keyword, or one that is no object where one is needed. Where no single
schema stands under `not`, the pointer leads there. -/
theorem check_fault_place
    (schema : Tree)
    (options : ValidatorOptions)
    (data : Tree)
    (e : SchemaError)
    (keyword : Keyword)
    (engine : Pattern.Engine)
    (ordered : schema.Ordered)
    (failed : check schema options data engine = .error e)
    (named : e.keyword? = some keyword) :
    ∃ place node, e.IsAt keyword place ∧ e.path = "#" ++ place.text ∧
      Stands schema place node ∧ keyword.BlamedOn node ∧
      (ListsNegated schema → schema.atText? place.text = some node) := by
  have raised : (outcome schema options data engine).verdict = .error e := by
    unfold check checkAndFill Validator.report at failed
    cases verdict : (outcome schema options data engine).verdict with
    | error e' =>
        simp only [verdict] at failed
        cases failed
        rfl
    | ok passed =>
        simp only [verdict] at failed
        cases failed
  obtain ⟨place, node, isAt, stands, blamed⟩ :=
    raises_walk schema schema.height 0 Pointer.root .root data e raised keyword named
  refine ⟨place, node, isAt, ?_, stands, blamed, ?_⟩
  · rcases isAt with rfl | ⟨_, rfl⟩ <;> rfl
  · intro lists
    rw [Tree.atText?_text]
    exact stands.leads ordered lists

/-- A schema with a keyword that cannot be evaluated, in a list under `not`. -/
def listedPattern : Tree :=
  .object [("not", .array [.object [("patternProperties", .null)]])]

/-- The same schema, alone under `not`. -/
def negatedPattern : Tree := .object [("not", .object [("patternProperties", .null)])]

theorem check_fault_place_listed :
    check listedPattern {} (.object []) = .error (.unsupported .patternProperties ⟨["not", "0"]⟩) ∧
      ∃ node, listedPattern.atText? "/not/0" = some node ∧
        Keyword.patternProperties.BlamedOn node := by
  have ordered : listedPattern.Ordered :=
    .singleton (.array (List.forall_mem_singleton.mpr (.singleton .null)))
  have lists : ListsNegated listedPattern :=
    everywhere_object rfl (List.forall_mem_singleton.mpr (everywhere_object rfl nofun))
  refine ⟨rfl, ?_⟩
  obtain ⟨place, node, isAt, _, _, blamed, leads⟩ :=
    check_fault_place listedPattern {} (.object []) _ _ Pattern.plain ordered rfl rfl
  rcases isAt with ⟨⟨⟩⟩ | ⟨_, ⟨⟩⟩
  exact ⟨node, leads lists, blamed⟩

/-- The pointer in the error leads nowhere if a schema stands alone under `not`. -/
theorem check_fault_place_negated :
    check negatedPattern {} (.object []) = .error (.unsupported .patternProperties ⟨["not", "0"]⟩) ∧
      SchemaError.path (.unsupported .patternProperties ⟨["not", "0"]⟩) = "#/not/0" ∧
      negatedPattern.atText? "/not/0" = none ∧
      Keyword.patternProperties.BlamedOn (.object [("patternProperties", .null)]) ∧
      negatedPattern.atText? "/not" = some (.object [("patternProperties", .null)]) :=
  ⟨rfl, rfl, rfl, Or.inl ⟨_, rfl, rfl⟩, rfl⟩

end Validator

end JsonDoc
