import JsonDoc.Proofs.Schema.Positions
import JsonDoc.Proofs.Schema.Refilling
import JsonDoc.Proofs.Schema.Steady

/-!
# Checking twice

By a schema without `enum`, `allOf`, `anyOf`, `oneOf` and `not`, checking a document as it was left
comes to the same once more and leaves it so, whatever the first check came to:
`checkAndFill_idempotent`.

What a later check does must not matter to an earlier one. Each property keeps to its own member and
each check of items to its own items, and all that follows them only looks.
-/

namespace JsonDoc
namespace Schema

open Check JsonDoc.Tree

variable {engine : Pattern.Engine}

/-- Walking with a schema is steady where nothing changes. -/
def WalkSteady (walk : Walk) (schema : Tree) : Prop :=
  ∀ path place, Steady Tree.Ordered Eq (walk schema path place)

section Levels

variable {walk : Walk} {rules : Rules} {path place : Pointer} {collectAll : Bool}

/-! ## Objects -/

/-- A property leaves the other members alone. -/
theorem leaves_property_apart
    {key other : String} {schema : Tree}
    (apart : key ≠ other)
    {R : Members Tree → Members Tree → Prop}
    (keeps : Leaves OrderedMembers R (property walk key schema path place)) :
    Leaves OrderedMembers (fun a b => a.get? other = b.get? other)
      (property walk key schema path place) := by
  intro members ordered
  refine ⟨(keeps members ordered).1, ?_⟩
  have filled : members.get? other = (fillMember key schema path members).1.get? other := by
    rcases fillMember_cases key schema path members with ⟨eq, _⟩ | ⟨value, _, _, eq⟩
    · rw [eq]
    · rw [eq, Members.get?_insert, if_neg apart]
  refine filled.trans ?_
  cases found : (fillMember key schema path members).1.get? key with
  | none =>
      rw [property_of_missing found]
      rfl
  | some child =>
      rw [property_of_get? found]
      exact ((Members.get?_replace _ _ _ _).trans (if_neg (Ne.symm apart))).symm

/-- A property keeps to its own member. -/
theorem steady_property
    {key : String} {schema : Tree}
    (default : OrderedDefault schema)
    (h : WalkSteady walk schema) :
    Steady OrderedMembers (fun a b => a.get? key = b.get? key)
      (property walk key schema path place) := by
  intro members later ordered orderedLater same
  have orderedFilled : OrderedMembers (fillMember key schema path members).1 :=
    ordered_fillMember default ordered
  cases found : (fillMember key schema path members).1.get? key with
  | none =>
      rw [property_of_missing found] at same ⊢
      have missing : later.get? key = none := same.symm.trans found
      have still : (fillMember key schema path later).1 = later :=
        fillMember_of_noDefault (noDefault_of_missing found) later
      rw [property_of_missing (by rw [still, missing])]
      exact ⟨rfl, rfl, still⟩
  | some child =>
      have orderedChild : child.Ordered := orderedFilled.member found
      have there : later.get? key = some (walk schema (path.child key)
          ((place.child Keyword.properties.name).child key) child).data := by
        rw [← same, property_of_get? found]
        simp [Outcome.map, Members.get?_replace, found]
      have still : (fillMember key schema path later).1 = later :=
        fillMember_of_contains (Members.contains_of_get? there)
      have again := h (path.child key) ((place.child Keyword.properties.name).child key) child _
        orderedChild (orderedLater.member there) rfl
      rw [property_of_get? found, property_of_get? (by rw [still, there])]
      refine ⟨again.verdict, again.violations, ?_⟩
      simp only [Outcome.map, still, again.data]
      exact Members.replace_get? orderedLater.sorted there

/-- What follows a property leaves its member alone, so all of them are steady. -/
theorem steady_properties
    (ordered : (Tree.object rules).Ordered)
    (leaves : ∀ schema ∈ partSchemas rules, WalkLeaves walk Extends schema)
    (h : ∀ schema ∈ partSchemas rules, WalkSteady walk schema) :
    Steady OrderedMembers Eq (properties collectAll walk rules path place) := by
  have keeps := leaves_entry lifts_extends.spreads ordered
    (partsSpread lifts_extends (fun _ => puts_extend) leaves) path place
  have each : ∀ entry ∈ propertySchemas rules,
      Steady OrderedMembers (fun a b => a.get? entry.1 = b.get? entry.1)
        (property walk entry.1 entry.2 path place) := fun entry mem =>
    steady_property (ordered_default (ordered_entry (ordered_properties ordered) mem))
      (h entry.2 (part_of_property mem))
  have keys : (propertySchemas rules).Sorted := (ordered_properties ordered).sorted
  rcases properties_cases collectAll walk rules path place with eq | ⟨e, eq⟩
  · rw [eq]
    clear eq
    generalize propertySchemas rules = schemas at keeps each keys
    induction schemas with
    | nil =>
        exact steady_pass
    | cons entry schemas ih =>
        obtain ⟨apart, keys⟩ := List.pairwise_cons.mp keys
        obtain ⟨keepsHere, keeps⟩ := List.forall_mem_cons.mp keeps
        obtain ⟨here, each⟩ := List.forall_mem_cons.mp each
        have others : Leaves OrderedMembers (fun a b => a.get? entry.1 = b.get? entry.1)
            (Check.all collectAll (schemas.map fun entry =>
              property walk entry.1 entry.2 path place)) := by
          refine leaves_all (fun _ _ => rfl) (fun _ _ _ => Eq.trans) (List.forall_mem_map.mpr ?_)
          intro other mem
          have ne : other.1 ≠ entry.1 := (String.ne_of_lt (apart other mem)).symm
          exact leaves_property_apart ne (keeps other mem)
        refine steady_all_cons ?_ ?_ keepsHere.keeps here others (ih keeps each keys)
        · rintro _ _ rfl
          rfl
        · rintro _ _ _ same rfl
          exact same
  · rw [eq]
    exact (looks_raise e).steady

theorem steady_objectCheck
    (ordered : (Tree.object rules).Ordered)
    (leaves : ∀ schema ∈ partSchemas rules, WalkLeaves walk Extends schema)
    (h : ∀ schema ∈ partSchemas rules, WalkSteady walk schema) :
    Steady OrderedMembers Eq (objectCheck collectAll walk rules path place) := by
  have parts := partsSpread lifts_extends (fun _ => puts_extend) leaves
  unfold objectCheck
  split
  · exact (looks_raise _).steady
  · refine steady_before_looks (leaves_properties lifts_extends.spreads ordered parts).keeps
      (steady_properties ordered leaves h) ?_
    simp only [List.forall_mem_cons]
    exact ⟨looks_required, looks_count, looks_count, by simp⟩

/-! ## Arrays -/

section Items

variable (leaves : ∀ schema ∈ itemSchemas rules, WalkLeaves walk Extends schema)
variable (h : ∀ schema ∈ itemSchemas rules, WalkSteady walk schema)

include h

theorem steady_itemCheck
    {check : Check Tree}
    (isItemCheck : ItemCheck walk rules check) :
    Steady Tree.Ordered Eq check := by
  cases isItemCheck with
  | walk path place isSchema =>
      exact h _ isSchema path place
  | pass =>
      exact steady_pass
  | violate _ _ =>
      exact Looks.steady fun _ => rfl

/-- The items with a schema of their own are looked at by themselves. -/
theorem steady_governedItems
    {schemas : List Tree}
    (found : rules.find? .items = some (.array schemas)) :
    Steady OrderedItems (fun a b => a.take schemas.length = b.take schemas.length)
      (governedItems collectAll walk schemas path place) := by
  intro items later good goodLater same
  have each (index : Nat) :
      Steady Tree.Ordered Eq (positionalCheck walk rules schemas path place index) :=
    steady_itemCheck h (itemCheck_positional found index)
  have first : (eachItem collectAll (positionalCheck walk rules schemas path place) 0
      (items.take schemas.length)).data = later.take schemas.length := by
    have length := length_eachItem collectAll (positionalCheck walk rules schemas path place)
      (items.take schemas.length) 0
    rw [List.length_take] at length
    rw [← same, governedItems_eq rules]
    simp only [Outcome.map]
    rcases Nat.le_total schemas.length items.length with enough | few
    · exact (List.take_left' (by omega)).symm
    · rw [List.drop_of_length_le few, List.append_nil]
      exact (List.take_of_length_le (by omega)).symm
  have again := steady_eachItem each 0 (items.take schemas.length) (later.take schemas.length)
    (fun item mem => good item (List.mem_of_mem_take mem))
    (fun item mem => goodLater item (List.mem_of_mem_take mem)) first
  rw [governedItems_eq rules, governedItems_eq rules]
  refine ⟨again.verdict, again.violations, ?_⟩
  simp only [Outcome.map, again.data, List.take_append_drop]

omit h in
/-- What comes after the items with a schema of their own leaves them alone. -/
theorem take_extraItems
    (governed : Nat)
    (items : List Tree) :
    (extraItems collectAll walk rules governed path place items).data.take governed =
      items.take governed := by
  unfold extraItems
  split
  · rfl
  · split
    · rfl
    · rfl
    · rfl
    · simp only [Outcome.map]
      rw [List.take_append_of_le_length (by rw [List.length_take]; omega), List.take_take,
        Nat.min_self]
    · rfl

theorem steady_extraItems
    {schemas : List Tree}
    (found : rules.find? .items = some (.array schemas)) :
    Steady OrderedItems Eq
      (extraItems collectAll walk rules schemas.length path place) := by
  intro items later good goodLater moved
  by_cases more : schemas.length < items.length ∧
      ∃ schema, rules.find? .additionalItems = some (.object schema)
  · obtain ⟨more, schema, additional⟩ := more
    let check := fun index => walk (.object schema) (path.item index)
      (place.child Keyword.additionalItems.name)
    have each (index : Nat) : Steady Tree.Ordered Eq (check index) :=
      h _ (by simp [itemSchemas, found, additional]) _ _
    have eq {items : List Tree} (more : schemas.length < items.length) :
        extraItems collectAll walk rules schemas.length path place items =
          (eachItem collectAll check schemas.length (items.drop schemas.length)).map
            (items.take schemas.length ++ ·) := by
      simp only [extraItems, additional, if_neg (Nat.not_le.mpr more)]
      rfl
    rw [eq more] at moved ⊢
    let left := (eachItem collectAll check schemas.length (items.drop schemas.length)).data
    have whole : items.take schemas.length ++ left = later := moved
    have length : (items.take schemas.length).length = schemas.length := by
      rw [List.length_take]
      omega
    have rest : later.drop schemas.length = left := by rw [← whole, List.drop_left' length]
    have first : later.take schemas.length = items.take schemas.length := by
      rw [← whole, List.take_left' length]
    have more' : schemas.length < later.length := by
      rw [← whole, List.length_append, length, length_eachItem, List.length_drop]
      omega
    have goodLeft : OrderedItems left := fun item mem =>
      goodLater item (whole ▸ List.mem_append_right _ mem)
    have again := steady_eachItem each schemas.length (items.drop schemas.length) left
      (fun item mem => good item (List.mem_of_mem_drop mem)) goodLeft rfl
    rw [eq more', rest, first, ← whole]
    exact again.map
  · have still : (extraItems collectAll walk rules schemas.length path place items).data =
        items := by
      unfold extraItems
      split
      · rfl
      · split
        · rfl
        · rfl
        · rfl
        · rename_i beyond _ schema additional
          exact absurd ⟨Nat.not_le.mp beyond, schema, additional⟩ more
        · rfl
    rw [still] at moved
    subst moved
    exact ⟨rfl, rfl, still⟩

include leaves

theorem steady_itemsCheck :
    Steady OrderedItems Eq (itemsCheck collectAll walk rules path place) := by
  have each := fun i schema (isItem : itemSchema? rules i = some schema) =>
    leaves schema (mem_itemSchemas isItem)
  have spreads := lifts_extends.spreads
  unfold itemsCheck
  split
  · exact steady_pass
  · rename_i schema found
    exact steady_eachItem (fun index => h _ (by simp [itemSchemas, found]) _ _) 0
  · rename_i schemas found
    have extra : Leaves OrderedItems (fun a b => a.take schemas.length = b.take schemas.length)
        (extraItems collectAll walk rules schemas.length path place) := fun items good =>
      ⟨(leaves_extraItems spreads each found items good).1, (take_extraItems _ _).symm⟩
    have rest : Leaves OrderedItems (fun a b => a.take schemas.length = b.take schemas.length)
        (Check.all collectAll
          [extraItems collectAll walk rules schemas.length path place]) :=
      leaves_all (fun _ _ => rfl) (fun _ _ _ => Eq.trans) (List.forall_mem_singleton.mpr extra)
    refine steady_all_cons ?_ ?_ (leaves_governedItems spreads each found).keeps
      (steady_governedItems h found) rest
      (steady_before_looks extra.keeps (steady_extraItems h found) (by simp))
    · rintro _ _ rfl
      rfl
    · rintro _ _ _ same rfl
      exact same
  · exact (looks_raise _).steady

theorem steady_arrayCheck :
    Steady OrderedItems Eq (arrayCheck collectAll walk rules path place) := by
  have each := fun i schema (isItem : itemSchema? rules i = some schema) =>
    leaves schema (mem_itemSchemas isItem)
  unfold arrayCheck
  refine steady_before_looks (leaves_itemsCheck lifts_extends.spreads each).keeps
    (steady_itemsCheck leaves h) ?_
  simp only [List.forall_mem_cons]
  exact ⟨looks_count, looks_count, looks_unique, by simp⟩

end Items

/-! ## Levels -/

theorem steady_kindCheck
    (ordered : (Tree.object rules).Ordered)
    (leaves : ∀ schema ∈ partSchemas rules, WalkLeaves walk Extends schema)
    (h : ∀ schema ∈ partSchemas rules, WalkSteady walk schema) :
    Steady Tree.Ordered Eq (kindCheck engine collectAll walk rules path place) := by
  rintro data _ good goodLater rfl
  cases data with
  | object members =>
      have again := steady_objectCheck ordered leaves h members _ good goodLater rfl
      exact again.map
  | array items =>
      have again := steady_arrayCheck (fun schema mem => leaves schema (part_of_item mem))
        (fun schema mem => h schema (part_of_item mem)) items _ (fun _ => good.item)
        (fun _ => goodLater.item) rfl
      exact again.map
  | null | boolean | number | string =>
      rw [kindCheck_scalar rfl rfl]
      exact ⟨rfl, rfl, kindCheck_scalar rfl rfl⟩

/-- A level has no `enum` and no keyword that combines schemas. -/
def CombinatorFreeRules (rules : Rules) : Prop :=
  ∀ keyword ∈ [.enumeration, .allOf, .anyOf, .oneOf, .not], rules.find? keyword = none

instance (rules : Rules) : Decidable (CombinatorFreeRules rules) :=
  inferInstanceAs (Decidable (∀ keyword ∈ _, _))

/-- Without combined schemas only the type is looked at before the keywords for the kind. -/
theorem generalChecks_of_free
    (free : CombinatorFreeRules rules) :
    generalChecks collectAll walk rules path place =
      [pass, typeCheck rules path place, pass, pass, pass, pass] := by
  rw [generalChecks_eq, enumCheck_of_absent (free .enumeration (by simp)),
    combined_of_absent (free .allOf (by simp)), combined_of_absent (free .anyOf (by simp)),
    combined_of_absent (free .oneOf (by simp)), combined_of_absent (free .not (by simp))]

/-- Members that are filled in change no type. -/
theorem steady_typeCheck :
    Steady Tree.Ordered Extends (typeCheck rules path place) := by
  intro data later _ _ extended
  rw [looks_typeCheck data] at extended
  unfold typeCheck
  cases rules.find? .type with
  | none =>
      exact ⟨rfl, rfl, rfl⟩
  | some value =>
      simp only [typed]
      cases Rules.types place value with
      | error e =>
          exact ⟨rfl, rfl, rfl⟩
      | ok names =>
          have same : names.any (Rules.hasType later) = names.any (Rules.hasType data) :=
            congrArg names.any (funext (hasType_of_extends extended))
          simp only [same, extended.kindName]
          unfold demand
          split
          · exact ⟨rfl, rfl, rfl⟩
          · exact ⟨rfl, rfl, rfl⟩

theorem steady_level
    (ordered : (Tree.object rules).Ordered)
    (free : CombinatorFreeRules rules)
    (leaves : ∀ schema ∈ partSchemas rules, WalkLeaves walk Extends schema)
    (h : ∀ schema ∈ partSchemas rules, WalkSteady walk schema) :
    Steady Tree.Ordered Eq (level engine collectAll walk rules path place) := by
  unfold level
  rw [generalChecks_of_free free]
  have looks : ∀ check ∈ [pass, typeCheck rules path place, pass, pass, pass, pass],
      Looks check := by simp [looks_pass, looks_typeCheck]
  refine steady_whenPassed (looks_all looks) (steady_all_of_looks looks ?_)
    (leaves_kind lifts_extends ordered (fun _ => puts_extend) leaves)
    (steady_kindCheck ordered leaves h)
  simp [steady_pass, steady_typeCheck]

end Levels

/-! ## Walks -/

/-- No `enum` and no keyword that combines schemas, at any position of a schema. -/
def CombinatorFree : Tree → Prop := Everywhere CombinatorFreeRules

theorem steady_walk
    {options : ValidatorOptions}
    (height depth : Nat)
    {schema : Tree}
    (ordered : schema.Ordered)
    (free : CombinatorFree schema) :
    WalkSteady (walk engine options height depth) schema := by
  intro path place
  refine walk_induction
    (fun schema check => schema.Ordered → CombinatorFree schema → Steady Tree.Ordered Eq check)
    (fun _ _ _ => steady_pass) (fun _ e _ _ => (looks_raise e).steady) ?_
    height depth schema path place ordered free
  intro height depth rules path place below ordered free
  refine steady_level ordered free.here ?_ ?_
  · exact fun schema mem => leaves_walk_extends height depth ((applied_part mem).ordered ordered)
  · exact fun schema mem path place => below schema (applied_part mem) path place
      ((applied_part mem).ordered ordered) (free.below (applied_part mem).child)

end Schema

namespace Validator

open Schema

variable {engine : Pattern.Engine}

/-- Checking a document once more as it was left comes to the same and leaves it so, if the schema
has neither `enum` nor keywords that combine schemas. -/
theorem checkAndFill_idempotent
    (schema : Tree)
    (options : ValidatorOptions)
    (data : Tree)
    (engine : Pattern.Engine)
    (orderedSchema : schema.Ordered)
    (ordered : data.Ordered)
    (free : CombinatorFree schema) :
    checkAndFill schema options (checkAndFill schema options data engine).2 engine =
      checkAndFill schema options data engine := by
  have left : (outcome schema options data engine).data.Ordered :=
    (leaves_walk_extends schema.height 0 orderedSchema Pointer.root Pointer.root data ordered).1
  have again : (outcome schema options (outcome schema options data engine).data engine).Echoes
      (outcome schema options data engine) (outcome schema options data engine).data :=
    steady_walk schema.height 0 orderedSchema free Pointer.root Pointer.root data _ ordered left
      rfl
  simp only [checkAndFill, Validator.report, again.verdict, again.violations, again.data]

/-- A member is filled in and breaks its type, and the next one has a pattern that is no string. -/
def malformedSecond : Tree :=
  .object [("properties", .object [
    ("a", .object [("default", .null), ("type", .string "string")]),
    ("b", .object [("default", .string ""), ("pattern", .null)]),
    ("c", .object [("default", .null)])])]

theorem ordered_malformedSecond :
    malformedSecond.Ordered := by
  refine .singleton (.object (by unfold Members.Sorted; decide) ?_)
  simp only [List.forall_mem_cons]
  refine ⟨.object (by unfold Members.Sorted; decide) ?_,
    .object (by unfold Members.Sorted; decide) ?_, .singleton .null, by simp⟩
  · simp [Tree.Ordered.null, Tree.Ordered.string]
  · simp [Tree.Ordered.null, Tree.Ordered.string]

theorem combinatorFree_malformedSecond :
    CombinatorFree malformedSecond := by
  refine everywhere_object (by decide) (List.forall_mem_cons.mpr ⟨?_, List.forall_mem_cons.mpr
    ⟨?_, List.forall_mem_singleton.mpr ?_⟩⟩)
  · exact everywhere_object (by decide) nofun
  · exact everywhere_object (by decide) nofun
  · exact everywhere_object (by decide) nofun

/-- The first check stops halfway, with two members filled in, and so does the second one. -/
theorem checkAndFill_idempotent_malformedSecond :
    let left := Tree.object [("a", .null), ("b", .string "")]
    checkAndFill malformedSecond { collectAll := true } (.object []) =
        (.error (.invalid .pattern ⟨["properties", "b"]⟩ .expectedString), left) ∧
      checkAndFill malformedSecond { collectAll := true } left =
        (.error (.invalid .pattern ⟨["properties", "b"]⟩ .expectedString), left) := by
  have done : checkAndFill malformedSecond { collectAll := true } (.object []) =
      (.error (.invalid .pattern ⟨["properties", "b"]⟩ .expectedString),
        .object [("a", .null), ("b", .string "")]) := rfl
  have again := checkAndFill_idempotent malformedSecond { collectAll := true } (.object [])
      Pattern.plain
    ordered_malformedSecond (.object .nil (by simp)) combinatorFree_malformedSecond
  rw [done] at again
  exact ⟨done, again⟩

end Validator
end JsonDoc
