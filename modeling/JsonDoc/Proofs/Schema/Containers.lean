import JsonDoc.Proofs.Schema.Keywords

/-!
# Keywords for objects and arrays

What the keywords for containers decide, given what the schemas below decide.
-/

namespace JsonDoc
namespace Schema

open Check Outcome

variable {rules : Rules} {path place : Pointer} {collectAll : Bool}
variable {walk : Walk} {Q : Tree → Tree → Prop}

/-! ## Objects -/

/-- No property of a schema object has a default. -/
def Bare (rules : Rules) : Prop :=
  ∀ schemas : Members Tree, rules.find? .properties = some (.object schemas) →
    ∀ key schema, (key, schema) ∈ schemas → schema.get? Keyword.default.name = none

/-- A property without a default is checked where it is present. -/
theorem decides_property
    {key : String} {schema : Tree} {members : Members Tree}
    (noDefault : schema.get? Keyword.default.name = none)
    (walks : WalkDecides walk Q schema)
    (ordered : (Tree.object members).Ordered) :
    (property walk key schema path place members).Decides members
      (∀ child, members.get? key = some child → Q schema child) := by
  cases ordered with
  | object sorted each =>
      have unfilled : fillMember key schema path members = (members, []) := by
        unfold fillMember
        simp [noDefault]
      unfold property
      simp only [unfilled, List.nil_append]
      cases present : members.get? key with
      | none =>
          exact (decides_pass members).congr (by simp)
      | some child =>
          have childOrdered : child.Ordered := each _ (Members.mem_of_get? present)
          have decides := walks (path.child key)
            ((place.child Keyword.properties.name).child key) child childOrdered
          exact (decides.map (Members.replace_get? sorted present)).congr (by simp)

theorem decides_properties
    {members : Members Tree}
    (ordered : (Tree.object members).Ordered)
    (bare : Bare rules)
    (walks : ∀ schemas : Members Tree, rules.find? .properties = some (.object schemas) →
      ∀ key schema, (key, schema) ∈ schemas → WalkDecides walk Q schema) :
    (properties collectAll walk rules path place members).Decides members
      (∀ schemas : Members Tree, rules.find? .properties = some (.object schemas) →
        ∀ key schema, (key, schema) ∈ schemas →
          ∀ child, members.get? key = some child → Q schema child) := by
  unfold properties
  cases found : rules.find? .properties with
  | none =>
      exact (decides_pass members).congr (by simp)
  | some value =>
      cases value with
      | object schemas =>
          have each : DecidesEach members
              (fun entry : String × Tree =>
                ∀ child, members.get? entry.1 = some child → Q entry.2 child)
              (schemas.map fun entry => property walk entry.1 entry.2 path place) schemas := by
            refine List.forall₂_map_left_iff.mpr (List.forall₂_same.mpr ?_)
            intro entry mem
            exact decides_property (bare schemas found _ _ mem) (walks schemas found _ _ mem)
              ordered
          refine (decides_all each).congr ?_
          simp only [Option.some.injEq, Tree.object.injEq, forall_eq', Prod.forall]
      | null | boolean | number | string | array =>
          exact decides_raise members _ _

theorem decides_required
    (members : Members Tree) :
    (required collectAll rules path place members).Decides members
      (∀ names name, rules.find? .required = some (.array names) →
        Tree.string name ∈ names → members.contains name) := by
  unfold required
  cases found : rules.find? .required with
  | none =>
      exact (decides_pass members).congr (by simp)
  | some value =>
      cases value with
      | array names =>
          have each : DecidesEach members
              (fun value => ∀ name, value = Tree.string name → members.contains name)
              (names.map (requiredName path place)) names := by
            refine List.forall₂_map_left_iff.mpr (List.forall₂_same.mpr ?_)
            intro value _
            cases value with
            | string name =>
                exact (decides_demand members _ path _).congr (by simp)
            | null | boolean | number | array | object =>
                exact decides_raise members _ _
          refine (decides_all each).congr ?_
          constructor
          · rintro all names' name same mem
            cases same
            exact all _ mem name rfl
          · rintro all value mem name rfl
            exact all names name rfl mem
      | null | boolean | number | string | object =>
          exact decides_raise members _ _

theorem decides_objectCheck
    {members : Members Tree}
    (ordered : (Tree.object members).Ordered)
    (bare : Bare rules)
    (walks : ∀ schema, Child (.object rules) schema → WalkDecides walk Q schema) :
    (objectCheck collectAll walk rules path place members).Decides members
      (ObjectFits rules (fun schema _ => Q schema) members) := by
  unfold objectCheck
  cases Keyword.unsupported.find? fun keyword => (rules.find? keyword).isSome with
  | some keyword =>
      exact decides_raise members _ _
  | none =>
      refine (decides_all_cons (decides_properties (Q := Q) ordered bare ?_)
        (decides_all_cons (decides_required members)
          (decides_all_cons (decides_count (P := fun n => n ≤ members.length) fun n => ?_)
            (decides_all_cons (decides_count (P := fun n => members.length ≤ n) fun n => ?_)
              (decides_all_nil members))))).congr ?_
      · exact fun schemas found key schema mem => walks schema (.property found mem)
      · exact decides_demand_le members n _ path _
      · exact decides_demand_le members _ n path _
      · constructor
        · rintro ⟨properties, required, least, most, _⟩
          exact ⟨properties, required, least, most⟩
        · rintro ⟨properties, required, least, most⟩
          exact ⟨properties, required, least, most, trivial⟩

/-! ## Arrays -/

/-- One schema for all items. -/
theorem decides_allItems
    {schema : Tree} {items : List Tree}
    (walks : WalkDecides walk Q schema)
    (ordered : (Tree.array items).Ordered)
    (index : Nat)
    (paths : Nat → Pointer)
    (place : Pointer) :
    (Check.eachItem collectAll (fun i => walk schema (paths i) place) index items).Decides items
      (∀ item ∈ items, Q schema item) := by
  cases ordered with
  | array each =>
      refine (decides_eachItem (P := fun _ item => Q schema item) items index ?_).congr ?_
      · intro i item here
        exact walks _ _ item (each item (List.mem_of_getElem? here))
      · constructor
        · intro all item mem
          obtain ⟨i, here⟩ := List.getElem?_of_mem mem
          exact all i item here
        · intro all i item here
          exact all item (List.mem_of_getElem? here)

/-- The items with a schema of their own. -/
theorem decides_governedItems
    {schemas items : List Tree}
    (walks : ∀ schema ∈ schemas, WalkDecides walk Q schema)
    (ordered : (Tree.array items).Ordered) :
    (governedItems collectAll walk schemas path place items).Decides items
      (∀ i, (hi : i < schemas.length) → ∀ item, items[i]? = some item → Q schemas[i] item) := by
  cases ordered with
  | array each =>
      unfold governedItems
      refine ((decides_eachItem (P := fun i item => ∀ schema, schemas[i]? = some schema →
        Q schema item) (items.take schemas.length) 0 ?_).map
          (List.take_append_drop schemas.length items)).congr ?_
      · intro i item here
        have mem : item ∈ items := List.mem_of_mem_take (List.mem_of_getElem? here)
        cases found : schemas[0 + i]? with
        | none =>
            exact (decides_pass item).congr (by simp)
        | some schema =>
            have decides := walks schema (List.mem_of_getElem? found) (path.item (0 + i))
              ((place.child Keyword.items.name).item (0 + i)) item (each item mem)
            exact decides.congr (by simp)
      · constructor
        · intro holds i hi item here
          refine holds i item ?_ schemas[i] ?_
          · rw [List.getElem?_take_of_lt hi]
            exact here
          · rw [Nat.zero_add]
            exact List.getElem?_eq_getElem hi
        · intro holds i item here schema found
          rw [Nat.zero_add] at found
          obtain ⟨hi, rfl⟩ := List.getElem?_eq_some_iff.mp found
          rw [List.getElem?_take_of_lt hi] at here
          exact holds i hi item here

/-- The items after those. -/
theorem decides_extraItems
    {items : List Tree}
    (governed : Nat)
    (walks : ∀ schema, rules.find? .additionalItems = some (.object schema) →
      WalkDecides walk Q (.object schema))
    (ordered : (Tree.array items).Ordered) :
    (extraItems collectAll walk rules governed path place items).Decides items
      (governed < items.length → ∀ value, rules.find? .additionalItems = some value →
        value = .boolean true ∨ ∃ schema, ∃ _ : rules.find? .additionalItems =
            some (.object schema),
          ∀ item ∈ items.drop governed, Q (.object schema) item) := by
  unfold extraItems
  split
  · rename_i few
    refine (decides_pass items).congr ?_
    simp only [true_iff]
    omega
  · rename_i more
    have more : governed < items.length := Nat.lt_of_not_le more
    cases found : rules.find? .additionalItems with
    | none =>
        exact (decides_pass items).congr (by simp)
    | some value =>
        cases value with
        | boolean flag =>
            cases flag with
            | true =>
                exact (decides_pass items).congr (by simp)
            | false =>
                exact (decides_violate items path _).congr (by simp [more])
        | object schema =>
            have restOrdered : (Tree.array (items.drop governed)).Ordered := by
              cases ordered with
              | array each =>
                  exact .array fun item mem => each item (List.mem_of_mem_drop mem)
            refine ((decides_allItems (walks schema found) restOrdered governed path.item
              (place.child Keyword.additionalItems.name)).map
                (List.take_append_drop governed items)).congr ?_
            simp [more]
        | null | number | string | array =>
            exact (decides_violate items path _).congr (by simp [more])

theorem equalIndex?_eq_none
    (item : Tree)
    (items : List Tree) :
    ∀ index : Nat, equalIndex? item index items = none ↔
      ∀ other ∈ items, ¬ item.approxEq other := by
  induction items with
  | nil =>
      simp [equalIndex?]
  | cons other items ih =>
      intro index
      by_cases same : item.approxEq other
      · simp [equalIndex?, same]
      · simp [equalIndex?, same, ih (index + 1)]

theorem duplicate?_eq_none
    (items : List Tree) :
    ∀ index : Nat, duplicate? index items = none ↔
      items.Pairwise fun a b => ¬ a.approxEq b := by
  induction items with
  | nil =>
      simp [duplicate?]
  | cons item items ih =>
      intro index
      rw [List.pairwise_cons, ← equalIndex?_eq_none item items (index + 1), ← ih (index + 1),
        duplicate?]
      cases equalIndex? item (index + 1) items with
      | none =>
          simp
      | some other =>
          simp

theorem decides_unique
    (items : List Tree) :
    (unique rules path place items).Decides items
      (Set rules .uniqueItems → items.Pairwise fun a b => ¬ a.approxEq b) := by
  unfold unique Set
  cases rules.find? .uniqueItems with
  | none =>
      exact (decides_pass items).congr (by simp)
  | some value =>
      cases value with
      | boolean flag =>
          cases flag with
          | true =>
              have same := duplicate?_eq_none items 0
              cases found : duplicate? 0 items with
              | none =>
                  exact (decides_pass items).congr (by simpa [found] using same)
              | some pair =>
                  refine (decides_violate items path _).congr ?_
                  simp only [found, reduceCtorEq, false_iff] at same
                  simpa using same
          | false =>
              exact (decides_pass items).congr (by simp)
      | null | number | string | array | object =>
          exact decides_raise items _ _

/-- What `items` asks, with what it leaves to `additionalItems`. -/
theorem decides_itemsCheck
    {items : List Tree}
    (ordered : (Tree.array items).Ordered)
    (walks : ∀ schema, Child (.object rules) schema → WalkDecides walk Q schema) :
    (itemsCheck collectAll walk rules path place items).Decides items
      ((∀ schema, rules.find? .items = some (.object schema) →
        ∀ item ∈ items, Q (.object schema) item) ∧
      (∀ schemas : List Tree, rules.find? .items = some (.array schemas) →
        (∀ i, (hi : i < schemas.length) → ∀ item, items[i]? = some item → Q schemas[i] item) ∧
        (schemas.length < items.length → ∀ value, rules.find? .additionalItems = some value →
          value = .boolean true ∨
            ∃ schema, ∃ _ : rules.find? .additionalItems = some (.object schema),
              ∀ item ∈ items.drop schemas.length, Q (.object schema) item))) := by
  unfold itemsCheck
  cases found : rules.find? .items with
  | none =>
      exact (decides_pass items).congr (by simp)
  | some value =>
      cases value with
      | object schema =>
          refine (decides_allItems (walks _ (.items found)) ordered 0 path.item
            (place.child Keyword.items.name)).congr ?_
          simp
      | array schemas =>
          refine (decides_all_cons (decides_governedItems (Q := Q) ?_ ordered)
            (decides_all_cons (decides_extraItems (Q := Q) schemas.length ?_ ordered)
              (decides_all_nil items))).congr ?_
          · exact fun schema mem => walks schema (.item found mem)
          · exact fun schema rest => walks _ (.additionalItems found rest)
          · simp
      | null | boolean | number | string =>
          exact decides_raise items _ _

theorem decides_arrayCheck
    {items : List Tree}
    (ordered : (Tree.array items).Ordered)
    (walks : ∀ schema, Child (.object rules) schema → WalkDecides walk Q schema) :
    (arrayCheck collectAll walk rules path place items).Decides items
      (ArrayFits rules (fun schema _ => Q schema) items) := by
  unfold arrayCheck
  refine (decides_all_cons (decides_itemsCheck ordered walks)
    (decides_all_cons (decides_count (P := fun n => n ≤ items.length) fun n => ?_)
      (decides_all_cons (decides_count (P := fun n => items.length ≤ n) fun n => ?_)
        (decides_all_cons (decides_unique items) (decides_all_nil items))))).congr ?_
  · exact decides_demand_le items n _ path _
  · exact decides_demand_le items _ n path _
  · constructor
    · rintro ⟨⟨all, positional⟩, least, most, unique, _⟩
      exact {
        all := all
        governed := fun schemas found => (positional schemas found).1
        rest := fun schemas found => (positional schemas found).2
        size := ⟨least, most⟩
        unique := unique }
    · intro fits
      refine ⟨⟨fits.all, ?_⟩, fits.size.1, fits.size.2, fits.unique, trivial⟩
      exact fun schemas found => ⟨fits.governed schemas found, fits.rest schemas found⟩

end Schema
end JsonDoc
