import JsonDoc.Proofs.Schema.Settled

/-!
# What checks leave

A check that fails or comes upon a malformed keyword keeps what it has filled in so far.
`Check.Leaves` says how far the data can get whatever the outcome is. A level leaves data as the
schemas below it do, `leaves_level`: it goes from tree to tree by putting in a member, by changing
a member or an item in its place, or by a branch of `allOf` on the same node.
-/

namespace JsonDoc

namespace Check

section Relations

variable {α : Type} {I : α → Prop} {R : α → α → Prop} {check first second : Check α}
variable {checks : List (Check α)} {collectAll : Bool}

/-- Whatever the check comes to, it keeps the data among those that satisfy `I`, and moves it by
`R` only. -/
def Leaves (I : α → Prop) (R : α → α → Prop) (check : Check α) : Prop :=
  ∀ data, I data → I (check data).data ∧ R data (check data).data

theorem Leaves.moves
    (h : Leaves I R check) :
    Moves I R check := by
  rintro data _ good ⟨_, rfl⟩
  exact h data good

theorem Looks.leaves
    (h : Looks check)
    (refl : ∀ a, I a → R a a) :
    Leaves I R check := by
  intro data good
  rw [h data]
  exact ⟨good, refl data good⟩

/-- One check on what another one has left. -/
theorem Leaves.trans
    (trans : ∀ a b c, R a b → R b c → R a c)
    (h : Leaves I R first)
    (k : Leaves I R second)
    {data : α}
    (good : I data) :
    I (second (first data).data).data ∧ R data (second (first data).data).data := by
  obtain ⟨goodMid, moved⟩ := h data good
  obtain ⟨goodOut, movedOn⟩ := k _ goodMid
  exact ⟨goodOut, trans _ _ _ moved movedOn⟩

theorem leaves_all
    (refl : ∀ a, I a → R a a)
    (trans : ∀ a b c, R a b → R b c → R a c)
    (h : ∀ check ∈ checks, Leaves I R check) :
    Leaves I R (all collectAll checks) := by
  induction checks with
  | nil =>
      exact looks_pass.leaves refl
  | cons check checks ih =>
      obtain ⟨first, others⟩ := List.forall_mem_cons.mp h
      intro data good
      rw [all_cons]
      split
      · exact first.trans trans (ih others) good
      · exact first data good

theorem leaves_whenPassed
    (trans : ∀ a b c, R a b → R b c → R a c)
    (h : Leaves I R first)
    (k : Leaves I R second) :
    Leaves I R (whenPassed first second) := by
  intro data good
  unfold whenPassed
  simp only
  split
  · exact h.trans trans k good
  · exact h data good

end Relations

end Check

namespace Schema

open Check JsonDoc.Tree

variable {engine : Pattern.Engine}

/-- A way in which trees change, with one for each member and one for the item at each index, such
that a tree changes so when one of its parts does. -/
structure Spreads (R : Tree → Tree → Prop) (member : String → Tree → Tree → Prop)
    (item : Nat → Tree → Tree → Prop) : Prop where
  refl : ∀ tree, tree.Ordered → R tree tree
  trans : ∀ a b c, R a b → R b c → R a c
  replace : ∀ (members : Members Tree) (key : String) (a b : Tree), OrderedMembers members →
    members.get? key = some a → member key a b →
    R (.object members) (.object (members.replace key b))
  set : ∀ (items : List Tree) (i : Nat) (a b : Tree), OrderedItems items → items[i]? = some a →
    item i a b → R (.array items) (.array (items.set i b))

/-- What walking with a schema leaves differs by `R` from what was there. -/
def WalkLeaves (walk : Walk) (R : Tree → Tree → Prop) (schema : Tree) : Prop :=
  ∀ path place, Leaves Tree.Ordered R (walk schema path place)

theorem WalkLeaves.moves
    {walk : Walk} {R : Tree → Tree → Prop} {schema : Tree}
    (h : WalkLeaves walk R schema) :
    WalkMoves walk R schema :=
  fun path place => (h path place).moves

namespace Lifts

variable {R : Tree → Tree → Prop} {M : Members Tree → Members Tree → Prop} (lifts : Lifts R M)

include lifts

theorem object_iff
    {members members' : Members Tree} :
    R (.object members) (.object members') ↔ M members members' := by
  rw [lifts.object]
  constructor
  · rintro ⟨_, ⟨⟩, moved⟩
    exact moved
  · exact fun moved => ⟨members', rfl, moved⟩

/-- Parts change as the whole does. -/
theorem spreads :
    Spreads R (fun _ => R) fun _ => R where
  refl := lifts.refl
  trans := lifts.trans
  replace members key a b ordered here moved :=
    lifts.object_iff.mpr (lifts.replace members key a b ordered here moved)
  set items i a b ordered here moved := by
    refine (lifts.array items _).mpr ⟨_, rfl, ?_⟩
    refine List.forall₂_iff_get.mpr ⟨List.length_set.symm, ?_⟩
    intro j before after
    by_cases same : i = j
    · subst same
      obtain ⟨_, rfl⟩ := List.getElem?_eq_some_iff.mp here
      simpa using moved
    · have still := lifts.refl items[j] (ordered _ (List.getElem_mem before))
      simpa [List.getElem_set, same] using still

theorem moves_members
    {check : Check (Members Tree)}
    (h : Leaves OrderedMembers (fun a b => R (.object a) (.object b)) check) :
    Moves OrderedMembers M check := by
  intro members out ordered passes
  obtain ⟨orderedOut, moved⟩ := h.moves members out ordered passes
  exact ⟨orderedOut, lifts.object_iff.mp moved⟩

end Lifts

/-- The schema for the item at an index. -/
def itemSchema? (rules : Rules) (index : Nat) : Option Tree :=
  match rules.find? .items with
  | some (.object schema) => some (.object schema)
  | some (.array schemas) =>
    match schemas[index]? with
    | some schema => some schema
    | none =>
      match rules.find? .additionalItems with
      | some (.object schema) => some (.object schema)
      | _ => none
  | _ => none

theorem mem_itemSchemas
    {rules : Rules} {index : Nat} {schema : Tree}
    (h : itemSchema? rules index = some schema) :
    schema ∈ itemSchemas rules := by
  cases found : rules.find? .items with
  | none =>
      simp [itemSchema?, found] at h
  | some value =>
      cases value with
      | object own =>
          simp only [itemSchema?, found, Option.some.injEq] at h
          subst h
          simp [itemSchemas, found]
      | array schemas =>
          cases here : schemas[index]? with
          | some own =>
              have mem := List.mem_of_getElem? here
              simp only [itemSchema?, found, here, Option.some.injEq] at h
              simp only [itemSchemas, found]
              split
              · exact List.mem_append_left _ (h ▸ mem)
              · exact h ▸ mem
          | none =>
              simp only [itemSchema?, found, here] at h
              split at h
              · rename_i additional
                cases h
                simp [itemSchemas, found, additional]
              · cases h
      | null | boolean | number | string =>
          simp [itemSchema?, found] at h

/-- How the schemas for the parts of a node and their defaults change it. -/
structure PartsSpread (walk : Walk) (rules : Rules) (R : Tree → Tree → Prop)
    (member : String → Tree → Tree → Prop) (item : Nat → Tree → Tree → Prop) : Prop where
  property : ∀ entry ∈ propertySchemas rules, WalkLeaves walk (member entry.1) entry.2
  item : ∀ (i : Nat) (schema : Tree), itemSchema? rules i = some schema →
    WalkLeaves walk (item i) schema
  default : ∀ entry ∈ propertySchemas rules, ∀ value,
    entry.2.get? Keyword.default.name = some value → ∀ members, OrderedMembers members →
    members.contains entry.1 = false → R (.object members) (.object (members.insert entry.1 value))

section Keywords

variable {walk : Walk} {rules : Rules} {path place : Pointer} {collectAll : Bool}
variable {R : Tree → Tree → Prop} {member : String → Tree → Tree → Prop}
variable {item : Nat → Tree → Tree → Prop}
variable (spreads : Spreads R member item)

include spreads

/-! ## Keywords for all kinds -/

theorem leaves_allOf
    (branch : ∀ schema ∈ allOfSchemas rules, WalkLeaves walk R schema) :
    Leaves Tree.Ordered R
      (combined walk rules path place .allOf (passesAll collectAll path)) := by
  rcases allOf_cases collectAll walk rules path place with ⟨checks, walks, eq⟩ | ⟨e, eq⟩
  · intro data ordered
    rw [eq, data_passesAll]
    exact leaves_all spreads.refl spreads.trans
      (forall_of_walk walks fun schema mem => branch schema mem path) data ordered
  · rw [eq]
    exact (looks_raise e).leaves spreads.refl

theorem leaves_generalChecks
    (branch : ∀ schema ∈ allOfSchemas rules, WalkLeaves walk R schema) :
    Leaves Tree.Ordered R
      (Check.all collectAll (generalChecks collectAll walk rules path place)) := by
  rw [generalChecks_eq]
  refine leaves_all spreads.refl spreads.trans ?_
  simp only [List.forall_mem_cons]
  exact ⟨looks_enumCheck.leaves spreads.refl, looks_typeCheck.leaves spreads.refl,
    leaves_allOf spreads branch, (looks_combined .anyOf looks_passesAny).leaves spreads.refl,
    (looks_combined .oneOf looks_passesOne).leaves spreads.refl,
    (looks_combined .not looks_passesNone).leaves spreads.refl, by simp⟩

/-! ## Objects -/

/-- A property puts in a default and then changes the member in its place. -/
theorem leaves_property
    {key : String} {schema : Tree}
    (default : OrderedDefault schema)
    (puts : ∀ value, schema.get? Keyword.default.name = some value → ∀ members,
      OrderedMembers members → members.contains key = false →
      R (.object members) (.object (members.insert key value)))
    (h : WalkLeaves walk (member key) schema) :
    Leaves OrderedMembers (fun a b => R (.object a) (.object b))
      (property walk key schema path place) := by
  intro members ordered
  have orderedFilled : OrderedMembers (fillMember key schema path members).1 :=
    ordered_fillMember default ordered
  have filled : R (.object members) (.object (fillMember key schema path members).1) := by
    rcases fillMember_cases key schema path members with ⟨eq, _⟩ | ⟨value, absent, isDefault, eq⟩
    · rw [eq]
      exact spreads.refl _ ordered
    · rw [eq]
      exact puts value isDefault members ordered absent
  unfold property
  simp only
  cases found : Members.get? (fillMember key schema path members).1 key with
  | none =>
      exact ⟨orderedFilled, filled⟩
  | some child =>
      obtain ⟨orderedChild, moved⟩ := h (path.child key)
        ((place.child Keyword.properties.name).child key) child (orderedFilled.member found)
      refine ⟨orderedFilled.replace orderedChild, spreads.trans _ _ _ filled ?_⟩
      exact spreads.replace _ key child _ orderedFilled found moved

/-- The properties of a level, one by one. -/
theorem leaves_entry
    (ordered : (Tree.object rules).Ordered)
    (parts : PartsSpread walk rules R member item)
    (path place : Pointer) :
    ∀ entry ∈ propertySchemas rules, Leaves OrderedMembers (fun a b => R (.object a) (.object b))
      (property walk entry.1 entry.2 path place) := by
  intro entry mem
  have default := ordered_default (ordered_entry (ordered_properties ordered) mem)
  exact leaves_property spreads default (parts.default entry mem) (parts.property entry mem)

theorem leaves_properties
    (ordered : (Tree.object rules).Ordered)
    (parts : PartsSpread walk rules R member item) :
    Leaves OrderedMembers (fun a b => R (.object a) (.object b))
      (properties collectAll walk rules path place) := by
  rcases properties_cases collectAll walk rules path place with eq | ⟨e, eq⟩
  · rw [eq]
    exact leaves_all (fun _ => spreads.refl _) (fun _ _ _ => spreads.trans _ _ _)
      (List.forall_mem_map.mpr (leaves_entry spreads ordered parts path place))
  · rw [eq]
    exact (looks_raise e).leaves fun _ => spreads.refl _

theorem leaves_objectCheck
    (ordered : (Tree.object rules).Ordered)
    (parts : PartsSpread walk rules R member item) :
    Leaves OrderedMembers (fun a b => R (.object a) (.object b))
      (objectCheck collectAll walk rules path place) := by
  have refl (members : Members Tree) (ordered : OrderedMembers members) :
      R (.object members) (.object members) := spreads.refl _ ordered
  unfold objectCheck
  split
  · exact (looks_raise _).leaves refl
  · refine leaves_all refl (fun _ _ _ => spreads.trans _ _ _) ?_
    simp only [List.forall_mem_cons]
    exact ⟨leaves_properties spreads ordered parts, looks_required.leaves refl,
      looks_count.leaves refl, looks_count.leaves refl, by simp⟩

/-! ## Arrays -/

/-- Items change one after the other. What is before them and after them stays. -/
theorem leaves_eachItem
    (collectAll : Bool)
    (check : Nat → Check Tree)
    (after items : List Tree) :
    ∀ before : List Tree, OrderedItems (before ++ (items ++ after)) →
      (∀ i, before.length ≤ i → i < before.length + items.length →
        Leaves Tree.Ordered (item i) (check i)) →
      OrderedItems (before ++ ((eachItem collectAll check before.length items).data ++ after)) ∧
        R (.array (before ++ (items ++ after)))
          (.array (before ++ ((eachItem collectAll check before.length items).data ++ after))) := by
  induction items with
  | nil =>
      intro before ordered _
      exact ⟨ordered, spreads.refl _ (.array ordered)⟩
  | cons first items ih =>
      intro before ordered h
      let left := (check before.length first).data
      have here : (before ++ (first :: items ++ after))[before.length]? = some first := by simp
      have put : (before ++ (first :: items ++ after)).set before.length left =
          before ++ (left :: items ++ after) := by simp
      obtain ⟨orderedLeft, moved⟩ := h before.length (Nat.le_refl _) (by simp) first
        (ordered first (List.mem_of_getElem? here))
      have orderedPut : OrderedItems (before ++ (left :: items ++ after)) := by
        rw [← put]
        intro other mem
        rcases List.mem_or_eq_of_mem_set mem with mem | rfl
        · exact ordered other mem
        · exact orderedLeft
      have movedPut : R (.array (before ++ (first :: items ++ after)))
          (.array (before ++ (left :: items ++ after))) := by
        rw [← put]
        exact spreads.set _ _ first left ordered here moved
      rw [eachItem_cons]
      split
      · have shift (rest : List Tree) :
            before ++ (left :: rest ++ after) = (before ++ [left]) ++ (rest ++ after) := by simp
        have next : (before ++ [left]).length = before.length + 1 := by simp
        rw [shift] at orderedPut movedPut
        obtain ⟨orderedRest, movedRest⟩ := ih (before ++ [left]) orderedPut fun i low high =>
          h i (by omega) (by rw [List.length_cons]; omega)
        have both := spreads.trans _ _ _ movedPut movedRest
        rw [next, ← shift] at orderedRest both
        exact ⟨orderedRest, both⟩
      · exact ⟨orderedPut, movedPut⟩

section Items

variable (h : ∀ (i : Nat) (schema : Tree), itemSchema? rules i = some schema →
  WalkLeaves walk (item i) schema)

include h

theorem leaves_governedItems
    {schemas : List Tree}
    (found : rules.find? .items = some (.array schemas)) :
    Leaves OrderedItems (fun a b => R (.array a) (.array b))
      (governedItems collectAll walk schemas path place) := by
  intro items ordered
  rw [governedItems_eq rules]
  have whole : [] ++ (items.take schemas.length ++ items.drop schemas.length) = items := by simp
  rw [← whole] at ordered
  have left := leaves_eachItem spreads collectAll (positionalCheck walk rules schemas path place)
    (items.drop schemas.length) (items.take schemas.length) [] ordered ?_
  · rw [whole] at left
    exact left
  · intro i _ inside
    rw [List.length_nil, Nat.zero_add, List.length_take] at inside
    have own : schemas[i]? = some schemas[i] := List.getElem?_eq_getElem (by omega)
    simp only [positionalCheck, own]
    exact h i _ (by simp only [itemSchema?, found, own]) _ _

theorem leaves_extraItems
    {schemas : List Tree}
    (found : rules.find? .items = some (.array schemas)) :
    Leaves OrderedItems (fun a b => R (.array a) (.array b))
      (extraItems collectAll walk rules schemas.length path place) := by
  intro items ordered
  have still : OrderedItems items ∧ R (.array items) (.array items) :=
    ⟨ordered, spreads.refl _ (.array ordered)⟩
  unfold extraItems
  split
  · exact still
  · rename_i more
    split
    · exact still
    · exact still
    · exact still
    · rename_i schema additional
      have whole : items.take schemas.length ++ (items.drop schemas.length ++ []) = items := by
        simp
      have length : (items.take schemas.length).length = schemas.length := by
        rw [List.length_take]
        omega
      rw [← whole] at ordered
      have left := leaves_eachItem spreads collectAll
        (fun index => walk (.object schema) (path.item index)
          (place.child Keyword.additionalItems.name))
        [] (items.drop schemas.length) (items.take schemas.length) ordered ?_
      · rw [whole, length, List.append_nil] at left
        exact left
      · intro i beyond _
        have none : schemas[i]? = none := List.getElem?_eq_none (by omega)
        exact h i _ (by simp only [itemSchema?, found, none, additional]) _ _
    · exact still

theorem leaves_itemsCheck :
    Leaves OrderedItems (fun a b => R (.array a) (.array b))
      (itemsCheck collectAll walk rules path place) := by
  unfold itemsCheck
  split
  · exact looks_pass.leaves fun _ ordered => spreads.refl _ (.array ordered)
  · rename_i schema found
    intro items ordered
    have left := leaves_eachItem spreads collectAll
      (fun index => walk (.object schema) (path.item index) (place.child Keyword.items.name))
      [] items [] (by simpa using ordered) ?_
    · simpa using left
    · intro i _ _
      exact h i _ (by simp only [itemSchema?, found]) _ _
  · rename_i schemas found
    refine leaves_all (fun _ ordered => spreads.refl _ (.array ordered))
      (fun _ _ _ => spreads.trans _ _ _) ?_
    simp only [List.forall_mem_cons]
    exact ⟨leaves_governedItems spreads h found, leaves_extraItems spreads h found, by simp⟩
  · exact (looks_raise _).leaves fun _ ordered => spreads.refl _ (.array ordered)

theorem leaves_arrayCheck :
    Leaves OrderedItems (fun a b => R (.array a) (.array b))
      (arrayCheck collectAll walk rules path place) := by
  have refl (items : List Tree) (ordered : OrderedItems items) :
      R (.array items) (.array items) := spreads.refl _ (.array ordered)
  unfold arrayCheck
  refine leaves_all refl (fun _ _ _ => spreads.trans _ _ _) ?_
  simp only [List.forall_mem_cons]
  exact ⟨leaves_itemsCheck spreads h, looks_count.leaves refl, looks_count.leaves refl,
    looks_unique.leaves refl, by simp⟩

end Items

/-! ## Levels -/

variable (ordered : (Tree.object rules).Ordered)
variable (parts : PartsSpread walk rules R member item)

include ordered parts

theorem leaves_kindCheck :
    Leaves Tree.Ordered R (kindCheck engine collectAll walk rules path place) := by
  intro data good
  cases data with
  | object members =>
      exact leaves_objectCheck spreads ordered parts members good
  | array items =>
      obtain ⟨orderedLeft, moved⟩ :=
        leaves_arrayCheck spreads parts.item items fun _ => good.item
      exact ⟨.array orderedLeft, moved⟩
  | null | boolean | number | string =>
      rw [kindCheck_scalar rfl rfl]
      exact ⟨good, spreads.refl _ good⟩

/-- A level leaves data as the schemas below it and the defaults of its properties do. -/
theorem leaves_level
    (branch : ∀ schema ∈ allOfSchemas rules, WalkLeaves walk R schema) :
    Leaves Tree.Ordered R (level engine collectAll walk rules path place) :=
  leaves_whenPassed spreads.trans (leaves_generalChecks spreads branch)
    (leaves_kindCheck spreads ordered parts)

end Keywords

/-! ## Walks -/

/-- What holds of a level, if it holds of the walks below, holds of the walk. Here it may depend on
where the data and the schema stand. -/
theorem walk_induction_at
    {options : ValidatorOptions}
    (Q : Tree → Pointer → Pointer → Check Tree → Prop)
    (pass : ∀ schema path place, Q schema path place Check.pass)
    (tooDeep : ∀ schema path place limit, Q schema path place (Check.raise (.tooDeep limit path)))
    (notAnObject : ∀ schema path place kind, schema.isObject = false →
      Q schema path place (Check.raise (.invalid .schema place (.notAnObject kind))))
    (level : ∀ height depth rules path place,
      (∀ schema path place,
        Q schema path place (walk engine options height depth schema path place)) →
      Q (.object rules) path place
        (level engine options.collectAll (walk engine options height depth) rules path place)) :
    ∀ height depth schema path place,
      Q schema path place (walk engine options height depth schema path place) := by
  intro height
  induction height with
  | zero =>
      exact fun _ => pass
  | succ height ih =>
      intro depth schema path place
      rw [walk]
      cases schema with
      | object rules =>
          rw [applyOnce]
          cases options.maxDepth.filter (· ≤ depth) with
          | some limit =>
              exact tooDeep _ _ _ _
          | none =>
              exact level height (depth + 1) rules path place (ih (depth + 1))
      | null | boolean | number | string | array =>
          exact notAnObject _ _ _ _ rfl

/-- What holds of a level, if it holds of the walks below that fill in defaults with it, holds of
the walk. -/
theorem walk_induction
    {options : ValidatorOptions}
    (Q : Tree → Check Tree → Prop)
    (pass : ∀ schema, Q schema Check.pass)
    (raise : ∀ schema e, Q schema (Check.raise e))
    (level : ∀ height depth rules path place,
      (∀ schema, Applied (.object rules) schema → ∀ path place,
        Q schema (walk engine options height depth schema path place)) →
      Q (.object rules)
        (level engine options.collectAll (walk engine options height depth) rules path place)) :
    ∀ height depth schema path place,
      Q schema (walk engine options height depth schema path place) := by
  refine walk_induction_at (fun schema _ _ check => Q schema check) (fun schema _ _ => pass schema)
    (fun schema _ _ _ => raise schema _) (fun schema _ _ _ _ => raise schema _) ?_
  intro height depth rules path place below
  exact level height depth rules path place fun schema _ => below schema

end Schema
end JsonDoc
