import JsonDoc.Proofs.Schema.Filling

/-!
# Objects and filled data

Properties fill in members. Each property keeps to its own member, so all of them repeat if each
one does. The other keywords for objects only look, and only `maxProperties` can be broken by
members that come later.
-/

namespace JsonDoc
namespace Schema

open Check JsonDoc.Tree

section Containers

variable {walk : Walk} {rules : Rules} {path place : Pointer} {collectAll : Bool}
variable {R : Tree → Tree → Prop} {M : Members Tree → Members Tree → Prop}

/-! ## Properties -/

theorem fillMember_of_contains
    {key : String} {schema : Tree} {members : Members Tree}
    (here : members.contains key = true) :
    (fillMember key schema path members).1 = members := by
  simp [fillMember, here]

/-- A member is filled in where it is missing and its schema has a default. -/
theorem fillMember_cases
    (key : String)
    (schema : Tree)
    (path : Pointer)
    (members : Members Tree) :
    ((fillMember key schema path members).1 = members ∧
        (members.contains key = true ∨ schema.get? Keyword.default.name = none)) ∨
      ∃ value, members.contains key = false ∧ schema.get? Keyword.default.name = some value ∧
        (fillMember key schema path members).1 = members.insert key value := by
  unfold fillMember
  cases here : members.contains key with
  | true =>
      exact Or.inl ⟨rfl, Or.inl rfl⟩
  | false =>
      cases default : schema.get? Keyword.default.name with
      | none =>
          exact Or.inl ⟨rfl, Or.inr rfl⟩
      | some value =>
          exact Or.inr ⟨value, rfl, rfl, rfl⟩

theorem fillMember_of_noDefault
    {key : String} {schema : Tree}
    (noDefault : schema.get? Keyword.default.name = none)
    (members : Members Tree) :
    (fillMember key schema path members).1 = members := by
  rcases fillMember_cases key schema path members with ⟨eq, _⟩ | ⟨value, _, isDefault, _⟩
  · exact eq
  · cases noDefault.symm.trans isDefault

/-- A member is still missing only if there is no default for it. -/
theorem noDefault_of_missing
    {key : String} {schema : Tree} {members : Members Tree}
    (missing : (fillMember key schema path members).1.get? key = none) :
    schema.get? Keyword.default.name = none := by
  rcases fillMember_cases key schema path members with ⟨eq, given⟩ | ⟨value, _, _, eq⟩
  · rw [eq] at missing
    exact given.resolve_left (by simp [Members.contains, missing])
  · rw [eq, Members.get?_insert, if_pos rfl] at missing
    cases missing

/-- A property is passed where its member, filled in if it was missing, is still missing or passes
its schema. -/
theorem passes_property
    {key : String} {schema : Tree} {members out : Members Tree} :
    (property walk key schema path place members).Passes out ↔
      ((fillMember key schema path members).1.get? key = none ∧
          out = (fillMember key schema path members).1) ∨
        ∃ child child', (fillMember key schema path members).1.get? key = some child ∧
          (walk schema (path.child key) ((place.child Keyword.properties.name).child key)
            child).Passes child' ∧
          out = (fillMember key schema path members).1.replace key child' := by
  unfold property
  simp only
  cases found : Members.get? (fillMember key schema path members).1 key with
  | none =>
      simp only [reduceCtorEq, false_and, exists_false, or_false, true_and]
      exact passes_pass
  | some child =>
      simp only [reduceCtorEq, false_and, false_or, Option.some.injEq]
      constructor
      · rintro ⟨verdict, rfl⟩
        exact ⟨child, _, rfl, ⟨verdict, rfl⟩, rfl⟩
      · rintro ⟨_, _, rfl, ⟨verdict, rfl⟩, rfl⟩
        exact ⟨verdict, rfl⟩

/-- A member that is missing after defaults were filled in is not checked. -/
theorem property_of_missing
    {key : String} {schema : Tree} {members : Members Tree}
    (missing : (fillMember key schema path members).1.get? key = none) :
    property walk key schema path place members = pass (fillMember key schema path members).1 := by
  simp only [property, missing]

/-- A member that is there, or filled in, is checked and put back. -/
theorem property_of_get?
    {key : String} {schema : Tree} {members : Members Tree} {child : Tree}
    (here : (fillMember key schema path members).1.get? key = some child) :
    property walk key schema path place members =
      let checked := walk schema (path.child key) ((place.child Keyword.properties.name).child key)
        child
      { checked.map fun value => (fillMember key schema path members).1.replace key value with
        filled := (fillMember key schema path members).2 ++ checked.filled } := by
  simp only [property, here]
  rfl

/-- The default of a schema, if it has one, is ordered. -/
def OrderedDefault (schema : Tree) : Prop :=
  ∀ value, schema.get? Keyword.default.name = some value → value.Ordered

variable {key : String} {schema : Tree}

theorem ordered_fillMember
    (default : OrderedDefault schema)
    {members : Members Tree}
    (ordered : OrderedMembers members) :
    OrderedMembers (fillMember key schema path members).1 := by
  rcases fillMember_cases key schema path members with ⟨eq, _⟩ | ⟨value, _, isDefault, eq⟩
  · rw [eq]
    exact ordered
  · rw [eq]
    exact ordered.insert (default value isDefault)

/-- A property leaves the other members alone. -/
theorem moves_property_apart
    {other : String}
    (apart : key ≠ other)
    (moves : Moves OrderedMembers M (property walk key schema path place)) :
    Moves OrderedMembers (fun a b => a.get? other = b.get? other)
      (property walk key schema path place) := by
  intro members out ordered passes
  refine ⟨(moves members out ordered passes).1, ?_⟩
  have filled : members.get? other = (fillMember key schema path members).1.get? other := by
    rcases fillMember_cases key schema path members with ⟨eq, _⟩ | ⟨value, _, _, eq⟩
    · rw [eq]
    · rw [eq, Members.get?_insert, if_neg apart]
  rcases passes_property.mp passes with ⟨_, rfl⟩ | ⟨child, child', _, _, rfl⟩
  · exact filled
  · refine filled.trans ?_
    rw [Members.get?_replace, if_neg (Ne.symm apart)]

/-- What a property leaves: no member and no default for it, or a member that has passed. -/
theorem left_by_property
    (default : OrderedDefault schema)
    {members out : Members Tree}
    (ordered : OrderedMembers members)
    (passes : (property walk key schema path place members).Passes out) :
    (out.get? key = none ∧ schema.get? Keyword.default.name = none) ∨
      ∃ child child', child.Ordered ∧ out.get? key = some child' ∧
        (walk schema (path.child key) ((place.child Keyword.properties.name).child key)
          child).Passes child' := by
  have orderedFilled : OrderedMembers (fillMember key schema path members).1 :=
    ordered_fillMember default ordered
  rcases passes_property.mp passes with ⟨absent, rfl⟩ | ⟨child, child', here, passesChild, rfl⟩
  · exact Or.inl ⟨absent, noDefault_of_missing absent⟩
  · refine Or.inr ⟨child, child', orderedFilled.member here, ?_, passesChild⟩
    rw [Members.get?_replace, if_pos rfl, here]
    rfl

/-- A property is passed without change by members whose member under the key is passed so. -/
theorem passes_property_of_get?
    {members : Members Tree} {child : Tree}
    (ordered : OrderedMembers members)
    (here : members.get? key = some child)
    (passes : (walk schema (path.child key) ((place.child Keyword.properties.name).child key)
      child).Passes child) :
    (property walk key schema path place members).Passes members := by
  have filled : (fillMember key schema path members).1 = members :=
    fillMember_of_contains (Members.contains_of_get? here)
  refine passes_property.mpr (Or.inr ⟨child, child, ?_, passes, ?_⟩)
  · rw [filled, here]
  · rw [filled, Members.replace_get? ordered.sorted here]

/-- A property repeats as long as its own member is not touched. -/
theorem repeats_property_same
    (default : OrderedDefault schema)
    (h : WalkRepeats walk Eq schema) :
    Repeats OrderedMembers (fun a b => a.get? key = b.get? key)
      (property walk key schema path place) := by
  intro members out later ordered passes orderedLater same
  rcases left_by_property default ordered passes with
    ⟨absent, noDefault⟩ | ⟨child, child', orderedChild, here, passesChild⟩
  · have filled : (fillMember key schema path later).1 = later :=
      fillMember_of_noDefault noDefault later
    refine passes_property.mpr (Or.inl ?_)
    rw [filled]
    exact ⟨same.symm.trans absent, rfl⟩
  · have there : later.get? key = some child' := same.symm.trans here
    refine passes_property_of_get? orderedLater there ?_
    exact h _ _ child child' child' orderedChild passesChild (orderedLater.member there) rfl

/-- A property with a default repeats where members are filled in. -/
theorem repeats_property_extended
    (default : OrderedDefault schema)
    (given : schema.get? Keyword.default.name ≠ none)
    (h : WalkRepeats walk Extends schema) :
    Repeats OrderedMembers MembersExtend (property walk key schema path place) := by
  intro members out later ordered passes orderedLater extended
  rcases left_by_property default ordered passes with
    ⟨_, noDefault⟩ | ⟨child, child', orderedChild, here, passesChild⟩
  · exact absurd noDefault given
  · obtain ⟨child'', there, extendedChild⟩ := extended.get? here
    refine passes_property_of_get? orderedLater there ?_
    exact h _ _ child child' child'' orderedChild passesChild (orderedLater.member there)
      extendedChild

/-- The schemas of the properties. -/
def propertySchemas (rules : Rules) : Members Tree :=
  match rules.find? .properties with
  | some (.object schemas) => schemas
  | _ => []

/-- The check of properties is that of each of them in a row, unless they are malformed. -/
theorem properties_cases
    (collectAll : Bool)
    (walk : Walk)
    (rules : Rules)
    (path place : Pointer) :
    properties collectAll walk rules path place =
        Check.all collectAll ((propertySchemas rules).map fun (key, schema) =>
          property walk key schema path place) ∨
      ∃ e, properties collectAll walk rules path place = raise e := by
  unfold properties propertySchemas
  cases rules.find? .properties with
  | none =>
      exact Or.inl rfl
  | some value =>
      cases value with
      | object schemas =>
          exact Or.inl rfl
      | null | boolean | number | string | array =>
          exact Or.inr ⟨_, rfl⟩

/-- Each property keeps to its own member, so all of them repeat. -/
theorem repeats_properties_eq
    (keys : (propertySchemas rules).Sorted)
    (default : ∀ entry ∈ propertySchemas rules, OrderedDefault entry.2)
    (moves : ∀ entry ∈ propertySchemas rules,
      Moves OrderedMembers MembersExtend (property walk entry.1 entry.2 path place))
    (h : ∀ entry ∈ propertySchemas rules, WalkRepeats walk Eq entry.2) :
    Repeats OrderedMembers Eq (properties collectAll walk rules path place) := by
  rcases properties_cases collectAll walk rules path place with eq | ⟨e, eq⟩
  · rw [eq]
    clear eq
    generalize propertySchemas rules = schemas at keys default moves h
    induction schemas with
    | nil =>
        exact repeats_pass
    | cons entry schemas ih =>
        obtain ⟨apart, keys⟩ := List.pairwise_cons.mp keys
        obtain ⟨hereDefault, default⟩ := List.forall_mem_cons.mp default
        obtain ⟨hereMoves, moves⟩ := List.forall_mem_cons.mp moves
        obtain ⟨here, h⟩ := List.forall_mem_cons.mp h
        have others : Moves OrderedMembers (fun a b => a.get? entry.1 = b.get? entry.1)
            (Check.all collectAll (schemas.map fun (key, schema) =>
              property walk key schema path place)) := by
          refine moves_all (fun _ _ => rfl) (fun _ _ _ => Eq.trans) (List.forall_mem_map.mpr ?_)
          intro other there
          have ne : other.1 ≠ entry.1 := by
            intro same
            have before : entry.1 < other.1 := apart other there
            rw [same] at before
            exact String.lt_irrefl _ before
          exact moves_property_apart ne (moves other there)
        refine repeats_of_sequence (sequence_all_cons _ _) ?_ hereMoves.keeps others
          (repeats_property_same hereDefault here) (ih keys default moves h)
        rintro _ _ _ _ same rfl
        exact same
  · rw [eq]
    exact repeats_raise

theorem repeats_properties_extended
    (moves : ∀ entry ∈ propertySchemas rules,
      Moves OrderedMembers MembersExtend (property walk entry.1 entry.2 path place))
    (h : ∀ entry ∈ propertySchemas rules,
      Repeats OrderedMembers MembersExtend (property walk entry.1 entry.2 path place)) :
    Repeats OrderedMembers MembersExtend (properties collectAll walk rules path place) := by
  rcases properties_cases collectAll walk rules path place with eq | ⟨e, eq⟩
  · rw [eq]
    exact repeats_all lifts_extends.members_refl lifts_extends.members_trans
      (List.forall_mem_map.mpr moves) (List.forall_mem_map.mpr h)
  · rw [eq]
    exact repeats_raise

/-! ## Other keywords -/

theorem looks_requiredName
    (value : Tree) :
    Looks (requiredName path place value) := by
  cases value with
  | string name =>
      exact looks_demand (fun members => Members.contains members name) path fun _ => .missing name
  | null | boolean | number | array | object =>
      exact looks_raise _

theorem looks_required :
    Looks (required collectAll rules path place) := by
  unfold required
  split
  · exact looks_pass
  · refine looks_all ?_
    intro check mem
    obtain ⟨value, _, rfl⟩ := List.mem_map.mp mem
    exact looks_requiredName value
  · exact looks_raise _

/-- A required member is not lost. -/
theorem repeats_required
    (lifts : Lifts R M) :
    Repeats OrderedMembers M (required collectAll rules path place) := by
  unfold required
  split
  · exact repeats_pass
  · refine repeats_all lifts.members_refl lifts.members_trans ?_ ?_
    · intro check mem
      obtain ⟨value, _, rfl⟩ := List.mem_map.mp mem
      exact (looks_requiredName value).moves lifts.members_refl
    · intro check mem
      obtain ⟨value, _, rfl⟩ := List.mem_map.mp mem
      cases value with
      | string name =>
          refine repeats_demand ?_
          intro data later moved here
          obtain ⟨a, here⟩ := Option.isSome_iff_exists.mp here
          obtain ⟨b, there, _⟩ := lifts.get? data later name a moved here
          exact Members.contains_of_get? there
      | null | boolean | number | array | object =>
          exact repeats_raise
  · exact repeats_raise

/-- What filled members must still satisfy: they are no fewer, and no more than allowed. -/
structure Sizes (rules : Rules) (M : Members Tree → Members Tree → Prop) : Prop where
  more : ∀ a b, M a b → a.length ≤ b.length
  limited : rules.find? .maxProperties ≠ none → ∀ a b, M a b → b.length ≤ a.length

theorem repeats_objectCheck
    (lifts : Lifts R M)
    (sizes : Sizes rules M)
    (moves : Moves OrderedMembers MembersExtend (properties collectAll walk rules path place))
    (h : Repeats OrderedMembers M (properties collectAll walk rules path place)) :
    Repeats OrderedMembers M (objectCheck collectAll walk rules path place) := by
  unfold objectCheck
  split
  · exact repeats_raise
  · refine repeats_before_looks (sequence_all_cons _ _) moves.keeps (looks_all ?_) h
      (repeats_all lifts.members_refl lifts.members_trans ?_ ?_)
    · simp only [List.forall_mem_cons]
      exact ⟨looks_required, looks_count, looks_count, by simp⟩
    · simp only [List.forall_mem_cons]
      exact ⟨looks_required.moves lifts.members_refl, looks_count.moves lifts.members_refl,
        looks_count.moves lifts.members_refl, by simp⟩
    · simp only [List.forall_mem_cons]
      refine ⟨repeats_required lifts, ?_, ?_, by simp⟩
      · refine repeats_ofKeyword fun n _ => repeats_demand ?_
        intro data later moved enough
        have := sizes.more data later moved
        rw [decide_eq_true_eq] at enough ⊢
        omega
      · refine repeats_ofKeyword fun n limit => repeats_demand ?_
        intro data later moved few
        have given : rules.find? .maxProperties ≠ none := by
          intro none
          simp [Rules.count, none] at limit
        have := sizes.limited given data later moved
        rw [decide_eq_true_eq] at few ⊢
        omega

end Containers

end Schema
end JsonDoc
