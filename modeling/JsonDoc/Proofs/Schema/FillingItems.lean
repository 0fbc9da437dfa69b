import JsonDoc.Proofs.Schema.Filling

/-!
# Arrays and filled data

Items may have members filled in below. Whatever `items` is, an array passes it if each item passes
one check that depends on its index only (`passes_positional`), so items repeat as their schemas do.
The other keywords for arrays only look. Filled items are as many as before, and `uniqueItems` is
the only one that can be broken later.
-/

namespace JsonDoc
namespace Schema

open Check JsonDoc.Tree

section Items

variable {walk : Walk} {rules : Rules} {path place : Pointer} {collectAll : Bool}
variable {R : Tree → Tree → Prop} {M : Members Tree → Members Tree → Prop}

/-- The schemas for the items of an array. -/
def itemSchemas (rules : Rules) : List Tree :=
  match rules.find? .items with
  | some (.object schema) => [.object schema]
  | some (.array schemas) =>
    match rules.find? .additionalItems with
    | some (.object schema) => schemas ++ [.object schema]
    | _ => schemas
  | _ => []

/-- The check of one item: by the walk of a schema for items, or one that always passes or never
does. -/
inductive ItemCheck (walk : Walk) (rules : Rules) : Check Tree → Prop
  | walk {schema : Tree} (path place : Pointer) :
      schema ∈ itemSchemas rules → ItemCheck walk rules (walk schema path place)
  | pass : ItemCheck walk rules Check.pass
  | violate (path : Pointer) (breach : Breach) : ItemCheck walk rules (Check.violate path breach)

/-- The same checks at the indices that are looked at leave the same items. -/
theorem eachItem_congr
    {check : Nat → Check Tree}
    (check' : Nat → Check Tree)
    (items : List Tree) :
    ∀ index : Nat,
      (∀ i, index ≤ i → i < index + items.length → check i = check' i) →
      eachItem collectAll check index items = eachItem collectAll check' index items := by
  induction items with
  | nil =>
      exact fun _ _ => rfl
  | cons item items ih =>
      intro index same
      have here : check index = check' index := same index (Nat.le_refl _) (by simp)
      have rest := ih (index + 1) fun i low high => same i (by omega) (by simp; omega)
      simp only [eachItem, here, rest]

theorem passes_eachItem_append
    {check : Nat → Check Tree}
    (first : List Tree) :
    ∀ {index : Nat} {second out : List Tree},
      (eachItem collectAll check index (first ++ second)).Passes out ↔
        ∃ a b, (eachItem collectAll check index first).Passes a ∧
          (eachItem collectAll check (index + first.length) second).Passes b ∧ out = a ++ b := by
  induction first with
  | nil =>
      intro index second out
      simp [passes_eachItem_nil]
  | cons item first ih =>
      intro index second out
      have shift : index + 1 + first.length = index + (item :: first).length := by
        rw [List.length_cons]
        omega
      rw [List.cons_append, passes_eachItem_cons]
      constructor
      · rintro ⟨a, rest, passesItem, passesRest, rfl⟩
        obtain ⟨as, b, passesFirst, passesSecond, rfl⟩ := ih.mp passesRest
        rw [shift] at passesSecond
        exact ⟨a :: as, b, passes_eachItem_cons.mpr ⟨a, as, passesItem, passesFirst, rfl⟩,
          passesSecond, rfl⟩
      · rintro ⟨_, b, passesAll, passesSecond, rfl⟩
        obtain ⟨a, as, passesItem, passesFirst, rfl⟩ := passes_eachItem_cons.mp passesAll
        rw [← shift] at passesSecond
        exact ⟨a, as ++ b, passesItem, ih.mpr ⟨as, b, passesFirst, passesSecond, rfl⟩, rfl⟩

theorem length_of_passes_eachItem
    {check : Nat → Check Tree}
    (items : List Tree) :
    ∀ {index : Nat} {out : List Tree},
      (eachItem collectAll check index items).Passes out → out.length = items.length := by
  induction items with
  | nil =>
      intro index out passes
      rw [passes_eachItem_nil.mp passes]
  | cons item items ih =>
      intro index out passes
      obtain ⟨first, rest, _, passesRest, rfl⟩ := passes_eachItem_cons.mp passes
      rw [List.length_cons, List.length_cons, ih passesRest]

theorem passes_eachItem_pass
    (items : List Tree) :
    ∀ {index : Nat} {out : List Tree},
      (eachItem collectAll (fun _ => Check.pass) index items).Passes out ↔ out = items := by
  induction items with
  | nil =>
      exact passes_eachItem_nil
  | cons item items ih =>
      intro index out
      rw [passes_eachItem_cons]
      constructor
      · rintro ⟨first, rest, passesFirst, passesRest, rfl⟩
        rw [passes_pass.mp passesFirst, ih.mp passesRest]
      · rintro rfl
        exact ⟨item, items, passes_pass.mpr rfl, ih.mpr rfl, rfl⟩

/-- The check of an item beyond those with a schema of their own. -/
def extraCheck
    (walk : Walk)
    (rules : Rules)
    (path place : Pointer)
    (index : Nat) : Check Tree :=
  match rules.find? .additionalItems with
  | none => Check.pass
  | some (.boolean true) => Check.pass
  | some (.object schema) =>
    walk (.object schema) (path.item index) (place.child Keyword.additionalItems.name)
  | some _ => Check.violate path .ungovernedItems

/-- The check of an item by its index. -/
def positionalCheck
    (walk : Walk)
    (rules : Rules)
    (schemas : List Tree)
    (path place : Pointer)
    (index : Nat) : Check Tree :=
  match schemas[index]? with
  | none => extraCheck walk rules path place index
  | some schema => walk schema (path.item index) ((place.child Keyword.items.name).item index)

/-- The items with a schema of their own are checked by their index. -/
theorem governedItems_eq
    (rules : Rules)
    (schemas items : List Tree) :
    governedItems collectAll walk schemas path place items =
      (eachItem collectAll (positionalCheck walk rules schemas path place) 0
        (items.take schemas.length)).map (· ++ items.drop schemas.length) := by
  unfold governedItems
  rw [eachItem_congr (positionalCheck walk rules schemas path place) _ 0 ?_]
  intro i _ high
  have inside : i < schemas.length := by
    rw [List.length_take] at high
    omega
  simp only [positionalCheck, List.getElem?_eq_getElem inside]

theorem passes_governedItems
    {schemas items out : List Tree} :
    (governedItems collectAll walk schemas path place items).Passes out ↔
      ∃ a, (eachItem collectAll (positionalCheck walk rules schemas path place) 0
          (items.take schemas.length)).Passes a ∧ out = a ++ items.drop schemas.length := by
  rw [governedItems_eq rules, passes_map]

theorem passes_extraItems
    {governed : Nat} {first second out : List Tree}
    (front : second ≠ [] → first.length = governed)
    (short : first.length ≤ governed) :
    (extraItems collectAll walk rules governed path place (first ++ second)).Passes out ↔
      ∃ b, (eachItem collectAll (extraCheck walk rules path place) governed second).Passes b ∧
        out = first ++ b := by
  unfold extraItems
  cases second with
  | nil =>
      simp [short, passes_pass, passes_eachItem_nil]
  | cons item second =>
      have eq := front (List.cons_ne_nil _ _)
      have more : ¬ (first ++ item :: second).length ≤ governed := by
        rw [List.length_append, List.length_cons]
        omega
      have take : (first ++ item :: second).take governed = first := by
        rw [← eq, List.take_left]
      have drop : (first ++ item :: second).drop governed = item :: second := by
        rw [← eq, List.drop_left]
      rw [if_neg more, take, drop]
      have passing (every : extraCheck walk rules path place = fun _ => Check.pass) :
          (Check.pass (first ++ item :: second)).Passes out ↔
            ∃ b, (eachItem collectAll (extraCheck walk rules path place) governed
              (item :: second)).Passes b ∧ out = first ++ b := by
        simp only [every, passes_pass, passes_eachItem_pass, exists_eq_left]
      have failing (every : extraCheck walk rules path place = fun _ =>
          Check.violate path .ungovernedItems) (breach : Breach) :
          (Check.violate path breach (first ++ item :: second)).Passes out ↔
            ∃ b, (eachItem collectAll (extraCheck walk rules path place) governed
              (item :: second)).Passes b ∧ out = first ++ b := by
        refine iff_of_false not_passes_violate ?_
        rintro ⟨b, passes, _⟩
        obtain ⟨_, _, passesFirst, _⟩ := passes_eachItem_cons.mp passes
        rw [every] at passesFirst
        exact not_passes_violate passesFirst
      cases found : rules.find? .additionalItems with
      | none =>
          exact passing (funext fun _ => by simp only [extraCheck, found])
      | some value =>
          cases value with
          | boolean allowed =>
              cases allowed with
              | true =>
                  exact passing (funext fun _ => by simp only [extraCheck, found])
              | false =>
                  exact failing (funext fun _ => by simp only [extraCheck, found]) _
          | object schema =>
              have every : extraCheck walk rules path place = fun index =>
                  walk (.object schema) (path.item index)
                    (place.child Keyword.additionalItems.name) :=
                funext fun _ => by simp only [extraCheck, found]
              rw [every]
              exact passes_map
          | null | number | string | array =>
              exact failing (funext fun _ => by simp only [extraCheck, found]) _

/-- Items that have a schema of their own, and the ones after them, pass one by one. -/
theorem passes_positional
    (schemas items out : List Tree) :
    (Check.all collectAll [governedItems collectAll walk schemas path place,
        extraItems collectAll walk rules schemas.length path place] items).Passes out ↔
      (eachItem collectAll (positionalCheck walk rules schemas path place) 0 items).Passes out := by
  have short : (items.take schemas.length).length ≤ schemas.length := by
    rw [List.length_take]
    exact Nat.min_le_left _ _
  have front (more : items.drop schemas.length ≠ []) :
      (items.take schemas.length).length = schemas.length := by
    have : schemas.length < items.length := by
      simpa [List.drop_eq_nil_iff] using more
    rw [List.length_take]
    omega
  have extra (b : List Tree) :
      (eachItem collectAll (extraCheck walk rules path place) schemas.length
          (items.drop schemas.length)).Passes b ↔
        (eachItem collectAll (positionalCheck walk rules schemas path place)
          (0 + (items.take schemas.length).length) (items.drop schemas.length)).Passes b := by
    by_cases none : items.drop schemas.length = []
    · rw [none]
      exact passes_eachItem_nil.trans passes_eachItem_nil.symm
    · rw [Nat.zero_add, front none]
      rw [eachItem_congr (positionalCheck walk rules schemas path place) _ schemas.length ?_]
      intro i low _
      simp only [positionalCheck, List.getElem?_eq_none low]
  have beyond (a : List Tree) (same : a.length = (items.take schemas.length).length) :
      (extraItems collectAll walk rules schemas.length path place
          (a ++ items.drop schemas.length)).Passes out ↔
        ∃ b, (eachItem collectAll (positionalCheck walk rules schemas path place)
          (0 + (items.take schemas.length).length) (items.drop schemas.length)).Passes b ∧
          out = a ++ b := by
    rw [passes_extraItems (fun more => same.trans (front more)) (same ▸ short)]
    exact exists_congr fun b => and_congr_left fun _ => extra b
  conv_rhs => rw [← List.take_append_drop schemas.length items]
  rw [sequence_pair _ _ items out, passes_eachItem_append]
  constructor
  · rintro ⟨mid, governed, rest⟩
    obtain ⟨a, passesFirst, rfl⟩ := passes_governedItems.mp governed
    obtain ⟨b, passesRest, rfl⟩ := (beyond a (length_of_passes_eachItem _ passesFirst)).mp rest
    exact ⟨a, b, passesFirst, passesRest, rfl⟩
  · rintro ⟨a, b, passesFirst, passesRest, rfl⟩
    refine ⟨_, passes_governedItems.mpr ⟨a, passesFirst, rfl⟩, ?_⟩
    exact (beyond a (length_of_passes_eachItem _ passesFirst)).mpr ⟨b, passesRest, rfl⟩

theorem itemCheck_extra
    {schemas : List Tree}
    (found : rules.find? .items = some (.array schemas))
    (index : Nat) :
    ItemCheck walk rules (extraCheck walk rules path place index) := by
  unfold extraCheck
  split
  · exact .pass
  · exact .pass
  · rename_i schema rest
    exact .walk _ _ (by simp [itemSchemas, found, rest])
  · exact .violate _ _

theorem itemCheck_positional
    {schemas : List Tree}
    (found : rules.find? .items = some (.array schemas))
    (index : Nat) :
    ItemCheck walk rules (positionalCheck walk rules schemas path place index) := by
  unfold positionalCheck
  split
  · exact itemCheck_extra found index
  · rename_i schema here
    refine .walk _ _ ?_
    simp only [itemSchemas, found]
    split
    · exact List.mem_append_left _ (List.mem_of_getElem? here)
    · exact List.mem_of_getElem? here

/-- Whatever the schemas for items are, items pass them one by one, unless they are malformed. -/
theorem itemsCheck_cases
    (collectAll : Bool)
    (walk : Walk)
    (rules : Rules)
    (path place : Pointer) :
    (∃ check : Nat → Check Tree, (∀ index, ItemCheck walk rules (check index)) ∧
        ∀ items out, (itemsCheck collectAll walk rules path place items).Passes out ↔
          (eachItem collectAll check 0 items).Passes out) ∨
      ∃ e, itemsCheck collectAll walk rules path place = raise e := by
  unfold itemsCheck
  cases found : rules.find? .items with
  | none =>
      refine Or.inl ⟨fun _ => Check.pass, fun _ => .pass, fun items out => ?_⟩
      exact passes_pass.trans (passes_eachItem_pass items).symm
  | some value =>
      cases value with
      | object schema =>
          exact Or.inl ⟨_, fun _ => .walk _ _ (by simp [itemSchemas, found]), fun _ _ => Iff.rfl⟩
      | array schemas =>
          exact Or.inl ⟨_, itemCheck_positional found, passes_positional schemas⟩
      | null | boolean | number | string =>
          exact Or.inr ⟨_, rfl⟩

theorem repeats_itemCheck
    {check : Check Tree}
    (h : ∀ schema ∈ itemSchemas rules, WalkRepeats walk R schema)
    (isItemCheck : ItemCheck walk rules check) :
    Repeats Tree.Ordered R check := by
  cases isItemCheck with
  | walk path place isSchema =>
      exact h _ isSchema path place
  | pass =>
      exact repeats_pass
  | violate _ _ =>
      exact repeats_violate

theorem repeats_itemsCheck
    (h : ∀ schema ∈ itemSchemas rules, WalkRepeats walk R schema) :
    Repeats OrderedItems (List.Forall₂ R) (itemsCheck collectAll walk rules path place) := by
  rcases itemsCheck_cases collectAll walk rules path place with ⟨check, each, same⟩ | ⟨e, eq⟩
  · refine Repeats.congr ?_ same
    exact repeats_eachItem (fun index => repeats_itemCheck h (each index)) 0
  · rw [eq]
    exact repeats_raise

/-! ## Other keywords -/

theorem looks_unique :
    Looks (unique rules path place) := by
  intro items
  unfold unique
  split
  · rfl
  · rfl
  · split <;> rfl
  · rfl

/-- Items that change are passed again where they need not be unique. -/
theorem repeats_unique
    (distinct : Set rules .uniqueItems → ∀ a b, List.Forall₂ R a b → a = b) :
    Repeats OrderedItems (List.Forall₂ R) (unique rules path place) := by
  refine looks_unique.repeats ?_
  intro data later _ _ moved verdict
  unfold unique at verdict ⊢
  split at verdict
  · rfl
  · rfl
  · rename_i asked
    rw [← distinct asked data later moved]
    exact verdict
  · cases verdict

theorem repeats_arrayCheck
    (lifts : Lifts R M)
    (distinct : Set rules .uniqueItems → ∀ a b, List.Forall₂ R a b → a = b)
    (keeps : Moves OrderedItems (fun _ _ => True) (itemsCheck collectAll walk rules path place))
    (h : Repeats OrderedItems (List.Forall₂ R) (itemsCheck collectAll walk rules path place)) :
    Repeats OrderedItems (List.Forall₂ R) (arrayCheck collectAll walk rules path place) := by
  unfold arrayCheck
  refine repeats_before_looks (sequence_all_cons _ _) keeps (looks_all ?_) h
    (repeats_all lifts.items_refl lifts.items_trans ?_ ?_)
  · simp only [List.forall_mem_cons]
    exact ⟨looks_count, looks_count, looks_unique, by simp⟩
  · simp only [List.forall_mem_cons]
    exact ⟨looks_count.moves lifts.items_refl, looks_count.moves lifts.items_refl,
      looks_unique.moves lifts.items_refl, by simp⟩
  · simp only [List.forall_mem_cons]
    refine ⟨?_, ?_, repeats_unique distinct, by simp⟩
    · refine repeats_ofKeyword fun least _ => repeats_demand ?_
      intro data later moved enough
      rw [← moved.length_eq]
      exact enough
    · refine repeats_ofKeyword fun most _ => repeats_demand ?_
      intro data later moved few
      rw [← moved.length_eq]
      exact few

end Items

end Schema
end JsonDoc
