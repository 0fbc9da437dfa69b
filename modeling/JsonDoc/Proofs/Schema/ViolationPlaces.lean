import JsonDoc.Proofs.Schema.Refilling
import JsonDoc.Proofs.Tree.Pointer

/-!
# Violations point at their node

The place of a violation is a pointer that leads to a node of the document as it was left, and the
node has the kind that the broken keyword is for: `checkAndFill_violation_place`.

A check at some path reports places below that path, `Check.Points`. What is found in a member or
an item is found below the path one token further on. The places stay right while the walk goes on,
since it only puts in members (`Extends.at?`).
-/

namespace JsonDoc

/-- The kind of the nodes that a keyword is for, if it is not for all. -/
def Keyword.kind? : Keyword → Option String
  | .required | .minProperties | .maxProperties => some "object"
  | .minItems | .maxItems | .uniqueItems | .additionalItems => some "array"
  | .minLength | .maxLength | .pattern => some "string"
  | .multipleOf | .maximum | .minimum => some "number"
  | _ => none

/-- The node has the kind that the keyword is for. -/
def Keyword.IsFor (keyword : Keyword) (node : Tree) : Prop :=
  ∀ kind, keyword.kind? = some kind → node.kindName = kind

/-- The violation is at a node of a tree that stands at a path. -/
def Violation.Within
    (violation : Violation)
    (path : Pointer)
    (tree : Tree) : Prop :=
  ∃ (tokens : List String) (node : Tree), violation.place = ⟨path.tokens ++ tokens⟩ ∧
    tree.at? ⟨tokens⟩ = some node ∧ violation.breach.keyword.IsFor node

section Within

variable {violation : Violation} {path : Pointer} {tree : Tree}

theorem within_here
    {breach : Breach}
    (isFor : breach.keyword.IsFor tree) :
    Violation.Within ⟨path, breach⟩ path tree :=
  ⟨[], tree, by simp, rfl, isFor⟩

namespace Violation.Within

/-- A violation keeps its node when members are put in. -/
theorem grow
    {tree' : Tree}
    (h : violation.Within path tree)
    (extended : Tree.Extends tree tree') :
    violation.Within path tree' := by
  obtain ⟨tokens, node, place, leads, isFor⟩ := h
  obtain ⟨node', leads', extendedNode⟩ := extended.at? leads
  exact ⟨tokens, node', place, leads', fun kind given =>
    extendedNode.kindName.trans (isFor kind given)⟩

theorem child
    {token : String} {child : Tree}
    (h : violation.Within (path.child token) child)
    (here : tree.child? token = some child) :
    violation.Within path tree := by
  obtain ⟨tokens, node, place, leads, isFor⟩ := h
  refine ⟨token :: tokens, node, ?_, ?_, isFor⟩
  · rw [place, Pointer.child, List.append_assoc, List.singleton_append]
  · rw [Tree.at?_cons, here]
    exact leads

theorem item
    {items : List Tree} {index : Nat} {item : Tree}
    (h : violation.Within (path.item index) item)
    (here : items[index]? = some item) :
    violation.Within path (.array items) :=
  h.child (by rw [Tree.child?_item, here])

end Violation.Within

end Within

namespace Check

open JsonDoc.Tree

variable {α β : Type} {I : α → Prop} {whole : α → Tree} {path : Pointer}
    {check first second : Check α}
variable {checks : List (Check α)} {collectAll : Bool}

/-- Every violation is at a node of what the check leaves, seen as a whole tree. -/
def Points
    (I : α → Prop)
    (whole : α → Tree)
    (path : Pointer)
    (check : Check α) : Prop :=
  ∀ data, I data → ∀ violation ∈ (check data).violations,
    violation.Within path (whole (check data).data)

/-- What a check leaves extends what was there. -/
abbrev Grows (I : α → Prop) (whole : α → Tree) (check : Check α) : Prop :=
  Leaves I (fun a b => Extends (whole a) (whole b)) check

/-- A check that reports nothing. -/
theorem points_silent
    (silent : ∀ data, (check data).violations = []) :
    Points I whole path check := by
  intro data _ violation mem
  rw [silent data] at mem
  cases mem

theorem points_pass :
    Points I whole path pass := points_silent fun _ => rfl

theorem points_raise
    (e : SchemaError) :
    Points I whole path (raise e) := points_silent fun _ => rfl

/-- A check that only looks reports the node itself. -/
theorem Looks.points
    (looks : Looks check)
    (here : ∀ data, I data → ∀ violation ∈ (check data).violations,
      violation.place = path ∧ violation.breach.keyword.IsFor (whole data)) :
    Points I whole path check := by
  rintro data good ⟨place, breach⟩ mem
  obtain ⟨rfl, isFor⟩ := here data good _ mem
  rw [looks data]
  exact within_here isFor

theorem points_demand
    (condition : α → Bool)
    (breach : α → Breach)
    (isFor : ∀ data, I data → (breach data).keyword.IsFor (whole data)) :
    Points I whole path fun data => demand (condition data) path (breach data) data := by
  refine (looks_demand condition path breach).points ?_
  intro data good violation mem
  cases holds : condition data with
  | true =>
      simp [demand, holds, pass] at mem
  | false =>
      simp only [demand, holds, violate, Bool.false_eq_true, if_false, List.mem_singleton] at mem
      rw [mem]
      exact ⟨rfl, isFor data good⟩

theorem points_ofKeyword
    {value : Except SchemaError (Option β)} {check : β → Check α}
    (h : ∀ b, Points I whole path (check b)) :
    Points I whole path (ofKeyword value check) := by
  unfold ofKeyword
  split
  · exact points_raise _
  · exact points_pass
  · exact h _

/-- What was found first is still there after a second check. -/
theorem points_join
    {data : α}
    (good : I data)
    (h : Points I whole path first)
    (keeps : Grows I whole first)
    (k : Points I whole path second)
    (grows : Grows I whole second) :
    ∀ violation ∈ ((first data).join (second (first data).data)).violations,
      violation.Within path (whole (second (first data).data).data) := by
  obtain ⟨goodMid, _⟩ := keeps data good
  intro violation mem
  rcases List.mem_append.mp mem with earlier | later
  · exact (h data good violation earlier).grow (grows _ goodMid).2
  · exact k _ goodMid violation later

theorem points_all
    (refl : ∀ data, I data → Extends (whole data) (whole data))
    (grows : ∀ check ∈ checks, Grows I whole check)
    (h : ∀ check ∈ checks, Points I whole path check) :
    Points I whole path (all collectAll checks) := by
  induction checks with
  | nil =>
      exact points_pass
  | cons check checks ih =>
      obtain ⟨first, others⟩ := List.forall_mem_cons.mp h
      obtain ⟨firstGrows, othersGrow⟩ := List.forall_mem_cons.mp grows
      intro data good
      rw [all_cons]
      split
      · exact points_join good first firstGrows (ih othersGrow others)
          (leaves_all refl (fun _ _ _ => Extends.trans) othersGrow)
      · exact first data good

theorem points_whenPassed
    (h : Points I whole path first)
    (keeps : Grows I whole first)
    (k : Points I whole path second)
    (grows : Grows I whole second) :
    Points I whole path (whenPassed first second) := by
  intro data good
  unfold whenPassed
  simp only
  split
  · exact points_join good h keeps k grows
  · exact h data good

/-- What is found in an item is at the node that the item has become. -/
theorem within_eachItem
    (path : Pointer)
    (collectAll : Bool)
    (check : Nat → Check Tree)
    (items : List Tree) :
    ∀ index : Nat, (∀ i (item : Tree), items[i]? = some item →
        ∀ violation ∈ (check (index + i) item).violations,
          violation.Within (path.item (index + i)) (check (index + i) item).data) →
      ∀ violation ∈ (eachItem collectAll check index items).violations,
        ∃ i item, (eachItem collectAll check index items).data[i]? = some item ∧
          violation.Within (path.item (index + i)) item := by
  induction items with
  | nil =>
      intro index _ violation mem
      cases mem
  | cons item items ih =>
      intro index h violation mem
      have here := h 0 item rfl
      by_cases goesOn : (check index item).goesOn collectAll = true
      · rw [eachItem_cons, if_pos goesOn] at mem ⊢
        rcases List.mem_append.mp mem with first | later
        · exact ⟨0, _, rfl, here violation first⟩
        · have shift (i : Nat) : index + 1 + i = index + (i + 1) := by omega
          obtain ⟨i, item', at_i, within⟩ := ih (index + 1) (fun i item at_i => by
            rw [shift]
            exact h (i + 1) item at_i) violation later
          rw [shift] at within
          exact ⟨i + 1, item', at_i, within⟩
      · rw [eachItem_cons, if_neg goesOn] at mem ⊢
        exact ⟨0, _, rfl, here violation mem⟩

end Check

namespace Schema

open Check JsonDoc.Tree

variable {engine : Pattern.Engine}

/-- Walking with a schema reports places below the path of the data. -/
def WalkPoints (walk : Walk) (schema : Tree) : Prop :=
  ∀ path place, Points Tree.Ordered id path (walk schema path place)

section Keywords

variable {walk : Walk} {rules : Rules} {path place : Pointer} {collectAll : Bool}
variable {I : Tree → Prop}

/-! ## Keywords for all kinds -/

theorem isFor_any
    {keyword : Keyword}
    (h : keyword.kind? = none)
    (node : Tree) :
    keyword.IsFor node := by
  intro kind given
  cases h.symm.trans given

theorem points_enumCheck :
    Points I id path (enumCheck rules path place) := by
  unfold enumCheck
  split
  · exact points_pass
  · rename_i value _
    cases value with
    | array options =>
        exact points_demand (fun node => options.any (·.approxEq node)) .notEnumerated
          fun node _ => isFor_any rfl node
    | null | boolean | number | string | object =>
        exact points_raise _

theorem points_typeCheck :
    Points I id path (typeCheck rules path place) := by
  unfold typeCheck
  split
  · exact points_pass
  · rename_i value _
    unfold typed
    cases Rules.types place value with
    | error e =>
        exact points_raise e
    | ok names =>
        exact points_demand (fun node => names.any (Rules.hasType node))
          (fun node => .wrongType names node.kindName) fun node _ => isFor_any rfl node

/-- What is concluded from a search is reported at the node, by keywords for all kinds of nodes. -/
theorem points_concluded
    {β : Type} {check : Check Tree} {breach : β → Option Breach}
    {search : Tree → Except SchemaError β × List Pointer}
    (eq : ∀ node, check node = concluded path node breach (search node))
    (general : ∀ found wrong, breach found = some wrong → wrong.keyword.kind? = none) :
    Points I id path check := by
  have looks : Looks check := fun node => by
    rw [eq]
    exact data_concluded _
  refine looks.points fun node _ violation mem => ?_
  rw [eq] at mem
  obtain ⟨here, found, wrong⟩ := mem_concluded mem
  exact ⟨here, isFor_any (general found _ wrong) node⟩

theorem points_passesAny
    (checks : List (Check Tree)) :
    Points I id path (passesAny path checks) := by
  refine points_concluded (passesAny_eq path checks) ?_
  rintro (_ | _) _ ⟨⟩
  rfl

theorem points_passesNone
    (checks : List (Check Tree)) :
    Points I id path (passesNone path checks) := by
  refine points_concluded (passesNone_eq path checks) ?_
  rintro (_ | _) _ ⟨⟩
  rfl

theorem points_passesOne
    (checks : List (Check Tree)) :
    Points I id path (passesOne path checks) := by
  refine points_concluded (passesOne_eq path checks) ?_
  intro count wrong eq
  split at eq
  · cases eq
  · cases eq
    split <;> rfl

theorem points_combined
    {combine : List (Check Tree) → Check Tree}
    (keyword : Keyword)
    (h : ∀ checks, Points I id path (combine checks)) :
    Points I id path (combined walk rules path place keyword combine) := by
  unfold combined
  cases rules.find? keyword with
  | none =>
      exact points_pass
  | some value =>
      cases read : Rules.schemas keyword place value with
      | error e =>
          simp only [read]
          exact points_raise e
      | ok schemas =>
          simp only [read]
          exact h _

/-- After the violations of the branches comes one at the node itself. -/
theorem points_passesAll
    {checks : List (Check Tree)}
    (h : Points I id path (Check.all collectAll checks)) :
    Points I id path (passesAll collectAll path checks) := by
  intro node good violation mem
  rw [data_passesAll]
  unfold passesAll at mem
  simp only at mem
  split at mem
  · rcases List.mem_append.mp mem with branch | own
    · exact h node good violation branch
    · rw [List.mem_singleton.mp own]
      exact within_here (isFor_any rfl _)
  · exact h node good violation mem

theorem points_generalChecks
    (leaves : ∀ schema ∈ allOfSchemas rules, WalkLeaves walk Extends schema)
    (points : ∀ schema ∈ allOfSchemas rules, WalkPoints walk schema) :
    Points Tree.Ordered id path
      (Check.all collectAll (generalChecks collectAll walk rules path place)) := by
  have spreads := lifts_extends.spreads
  rw [generalChecks_eq]
  refine points_all spreads.refl ?_ ?_
  · simp only [List.forall_mem_cons]
    exact ⟨looks_enumCheck.leaves spreads.refl, looks_typeCheck.leaves spreads.refl,
      leaves_allOf spreads leaves, (looks_combined .anyOf looks_passesAny).leaves spreads.refl,
      (looks_combined .oneOf looks_passesOne).leaves spreads.refl,
      (looks_combined .not looks_passesNone).leaves spreads.refl, by simp⟩
  · simp only [List.forall_mem_cons]
    refine ⟨points_enumCheck, points_typeCheck, ?_, points_combined .anyOf points_passesAny,
      points_combined .oneOf points_passesOne, points_combined .not points_passesNone, by simp⟩
    rcases allOf_cases collectAll walk rules path place with ⟨checks, walks, eq⟩ | ⟨e, eq⟩
    · rw [eq]
      refine points_passesAll (points_all spreads.refl ?_ ?_)
      · exact forall_of_walk walks fun schema mem => leaves schema mem path
      · exact forall_of_walk walks fun schema mem => points schema mem path
    · rw [eq]
      exact points_raise e

/-! ## Objects -/

theorem points_property
    {key : String} {schema : Tree}
    (default : OrderedDefault schema)
    (h : WalkPoints walk schema) :
    Points OrderedMembers .object path (property walk key schema path place) := by
  intro members ordered violation mem
  have orderedFilled : OrderedMembers (fillMember key schema path members).1 :=
    ordered_fillMember default ordered
  unfold property at mem ⊢
  simp only at mem ⊢
  cases found : Members.get? (fillMember key schema path members).1 key with
  | none =>
      simp only [found] at mem
      cases mem
  | some child =>
      simp only [found] at mem
      refine (h _ _ child (orderedFilled.member found) violation mem).child ?_
      simp [Tree.child?, Outcome.map, Members.get?_replace, found]

theorem points_required :
    Points OrderedMembers .object path (required collectAll rules path place) := by
  unfold required
  split
  · exact points_pass
  · refine points_all (fun _ ordered => Extends.refl ordered) ?_ ?_
    · intro check mem
      obtain ⟨value, _, rfl⟩ := List.mem_map.mp mem
      exact (looks_requiredName value).leaves fun _ ordered => Extends.refl ordered
    · intro check mem
      obtain ⟨value, _, rfl⟩ := List.mem_map.mp mem
      cases value with
      | string name =>
          refine points_demand (fun members => Members.contains members name)
            (fun _ => .missing name) ?_
          rintro _ _ _ ⟨⟩
          rfl
      | null | boolean | number | array | object =>
          exact points_raise _
  · exact points_raise _

variable (ordered : (Tree.object rules).Ordered)
variable (leaves : ∀ schema, Applied (.object rules) schema → WalkLeaves walk Extends schema)
variable (points : ∀ schema, Applied (.object rules) schema → WalkPoints walk schema)

include ordered leaves points

theorem points_objectCheck :
    Points OrderedMembers .object path (objectCheck collectAll walk rules path place) := by
  have refl (members : Members Tree) (good : OrderedMembers members) :
      Extends (.object members) (.object members) := Extends.refl good
  have spreads := lifts_extends.spreads
  have parts := partsSpread lifts_extends (fun _ => puts_extend)
    fun schema mem => leaves schema (applied_part mem)
  unfold objectCheck
  split
  · exact points_raise _
  · refine points_all refl ?_ ?_
    · simp only [List.forall_mem_cons]
      exact ⟨leaves_properties spreads ordered parts, looks_required.leaves refl,
        looks_count.leaves refl, looks_count.leaves refl, by simp⟩
    · simp only [List.forall_mem_cons]
      refine ⟨?_, points_required, points_ofKeyword fun n => points_demand _ _ ?_,
        points_ofKeyword fun n => points_demand _ _ ?_, by simp⟩
      · rcases properties_cases collectAll walk rules path place with eq | ⟨e, eq⟩
        · rw [eq]
          refine points_all refl (List.forall_mem_map.mpr ?_) (List.forall_mem_map.mpr ?_)
          · exact leaves_entry spreads ordered parts path place
          · intro entry mem
            have default := ordered_default (ordered_entry (ordered_properties ordered) mem)
            exact points_property default (points _ (applied_part (part_of_property mem)))
        · rw [eq]
          exact points_raise e
      · rintro _ _ _ ⟨⟩
        rfl
      · rintro _ _ _ ⟨⟩
        rfl

/-! ## Arrays -/

omit ordered leaves in
/-- The check of an item by its index reports places below the item. -/
theorem within_item
    {index : Nat} {schema item : Tree}
    (isItem : itemSchema? rules index = some schema)
    (good : item.Ordered)
    (place : Pointer) :
    ∀ violation ∈ (walk schema (path.item index) place item).violations,
      violation.Within (path.item index) (walk schema (path.item index) place item).data :=
  points schema (applied_part (part_of_item (mem_itemSchemas isItem))) _ place item good

omit ordered leaves in
theorem points_governedItems
    {schemas : List Tree}
    (found : rules.find? .items = some (.array schemas)) :
    Points OrderedItems .array path (governedItems collectAll walk schemas path place) := by
  intro items good violation mem
  rw [governedItems_eq rules] at mem ⊢
  obtain ⟨i, item, here, within⟩ := within_eachItem path collectAll
    (positionalCheck walk rules schemas path place) (items.take schemas.length) 0 (by
      intro i item here
      obtain ⟨inside, rfl⟩ := List.getElem?_eq_some_iff.mp here
      rw [List.length_take] at inside
      have own : schemas[i]? = some schemas[i] := List.getElem?_eq_getElem (by omega)
      have goodItem := good _ (List.mem_of_mem_take (List.mem_of_getElem? here))
      simp only [Nat.zero_add, positionalCheck, own]
      exact within_item points (by simp only [itemSchema?, found, own]) goodItem _)
    violation mem
  rw [Nat.zero_add] at within
  obtain ⟨inside, _⟩ := List.getElem?_eq_some_iff.mp here
  refine within.item ?_
  simp only [Outcome.map]
  rw [List.getElem?_append_left inside, here]

omit ordered leaves in
theorem points_extraItems
    {schemas : List Tree}
    (found : rules.find? .items = some (.array schemas)) :
    Points OrderedItems .array path
      (extraItems collectAll walk rules schemas.length path place) := by
  intro items good violation mem
  unfold extraItems at mem ⊢
  split at mem
  · cases mem
  · rename_i more
    rw [if_neg more]
    split at mem
    · cases mem
    · cases mem
    · rw [List.mem_singleton.mp mem]
      refine within_here ?_
      rintro _ ⟨⟩
      rfl
    · rename_i schema additional
      obtain ⟨i, item, here, within⟩ := within_eachItem path collectAll
        (fun index => walk (.object schema) (path.item index)
          (place.child Keyword.additionalItems.name))
        (items.drop schemas.length) schemas.length (by
          intro i item here
          have none : schemas[schemas.length + i]? = none := List.getElem?_eq_none (by omega)
          have goodItem := good _ (List.mem_of_mem_drop (List.mem_of_getElem? here))
          exact within_item points (by simp only [itemSchema?, found, none, additional])
            goodItem _)
        violation mem
      have length : (items.take schemas.length).length = schemas.length := by
        rw [List.length_take]
        omega
      refine within.item ?_
      simp only [Outcome.map]
      rw [List.getElem?_append_right (by omega), length, Nat.add_sub_cancel_left, here]
    · rw [List.mem_singleton.mp mem]
      refine within_here ?_
      rintro _ ⟨⟩
      rfl

omit ordered in
theorem points_itemsCheck :
    Points OrderedItems .array path (itemsCheck collectAll walk rules path place) := by
  have spreads := lifts_extends.spreads
  have parts := partsSpread lifts_extends (fun _ => puts_extend)
    fun schema mem => leaves schema (applied_part mem)
  unfold itemsCheck
  split
  · exact points_pass
  · rename_i schema found
    intro items good violation mem
    obtain ⟨i, item, here, within⟩ := within_eachItem path collectAll
      (fun index => walk (.object schema) (path.item index) (place.child Keyword.items.name))
        items 0
      (fun i item here => within_item points (by simp only [itemSchema?, found])
        (good _ (List.mem_of_getElem? here)) _) violation mem
    rw [Nat.zero_add] at within
    exact within.item here
  · rename_i schemas found
    refine points_all (fun _ good => spreads.refl _ (.array good)) ?_ ?_
    · simp only [List.forall_mem_cons]
      exact ⟨leaves_governedItems spreads parts.item found,
        leaves_extraItems spreads parts.item found, by simp⟩
    · simp only [List.forall_mem_cons]
      exact ⟨points_governedItems points found, points_extraItems points found, by simp⟩
  · exact points_raise _

omit ordered leaves points in
theorem points_unique :
    Points OrderedItems .array path (unique rules path place) := by
  refine looks_unique.points ?_
  intro items _ violation mem
  unfold unique at mem
  split at mem
  · cases mem
  · cases mem
  · split at mem
    · cases mem
    · rw [List.mem_singleton.mp mem]
      refine ⟨rfl, ?_⟩
      rintro _ ⟨⟩
      rfl
  · cases mem

omit ordered in
theorem points_arrayCheck :
    Points OrderedItems .array path (arrayCheck collectAll walk rules path place) := by
  have refl (items : List Tree) (good : OrderedItems items) :
      Extends (.array items) (.array items) := Extends.refl (.array good)
  have parts := partsSpread lifts_extends (fun _ => puts_extend)
    fun schema mem => leaves schema (applied_part mem)
  unfold arrayCheck
  refine points_all refl ?_ ?_
  · simp only [List.forall_mem_cons]
    exact ⟨leaves_itemsCheck lifts_extends.spreads parts.item, looks_count.leaves refl,
      looks_count.leaves refl, looks_unique.leaves refl, by simp⟩
  · simp only [List.forall_mem_cons]
    refine ⟨points_itemsCheck leaves points, points_ofKeyword fun n => points_demand _ _ ?_,
      points_ofKeyword fun n => points_demand _ _ ?_, points_unique, by simp⟩
    · rintro _ _ _ ⟨⟩
      rfl
    · rintro _ _ _ ⟨⟩
      rfl

/-! ## Scalars -/

omit ordered leaves points

theorem points_stringCheck
    (content : String) :
    Points (· = .string content) id path
      (stringCheck engine collectAll rules content path place) := by
  have refl (node : Tree) (same : node = .string content) : Extends node node :=
    same ▸ .string content
  unfold stringCheck
  refine points_all refl ?_ ?_
  · simp only [List.forall_mem_cons]
    exact ⟨(looks_ofKeyword fun _ => looks_demand _ _ _).leaves refl,
      (looks_ofKeyword fun _ => looks_demand _ _ _).leaves refl,
      (looks_matching content).leaves refl, by simp⟩
  · simp only [List.forall_mem_cons]
    refine ⟨points_ofKeyword fun n => points_demand _ _ ?_,
      points_ofKeyword fun n => points_demand _ _ ?_,
      ?_, by simp⟩
    · rintro _ rfl _ ⟨⟩
      rfl
    · rintro _ rfl _ ⟨⟩
      rfl
    · unfold matching
      split
      · exact points_pass
      · simp only
        split
        · exact points_raise _
        · refine points_demand _ _ ?_
          rintro _ rfl _ ⟨⟩
          rfl
      · exact points_raise _

theorem points_numberCheck
    (n : Binary64) :
    Points (· = .number n) id path (numberCheck collectAll rules n path place) := by
  have refl (node : Tree) (same : node = .number n) : Extends node node := same ▸ .number n
  unfold numberCheck
  refine points_all refl ?_ ?_
  · simp only [List.forall_mem_cons]
    refine ⟨(looks_ofKeyword fun divisor => ?_).leaves refl,
      (looks_ofKeyword fun _ => looks_demand _ _ _).leaves refl,
      (looks_ofKeyword fun _ => looks_demand _ _ _).leaves refl, by simp⟩
    split
    · exact looks_raise _
    · exact looks_demand _ _ _
  · simp only [List.forall_mem_cons]
    refine ⟨points_ofKeyword fun divisor => ?_, points_ofKeyword fun (_, _) => points_demand _ _ ?_,
      points_ofKeyword fun (_, _) => points_demand _ _ ?_, by simp⟩
    · split
      · exact points_raise _
      · refine points_demand _ _ ?_
        rintro _ rfl _ ⟨⟩
        rfl
    · rintro _ rfl _ ⟨⟩
      rfl
    · rintro _ rfl _ ⟨⟩
      rfl

/-! ## Levels -/

include ordered leaves points

theorem points_kindCheck :
    Points Tree.Ordered id path (kindCheck engine collectAll walk rules path place) := by
  intro node good violation mem
  cases node with
  | object members =>
      exact points_objectCheck ordered leaves points members good violation mem
  | array items =>
      exact points_arrayCheck leaves points items (fun _ => good.item) violation mem
  | string content =>
      exact points_stringCheck content _ rfl violation mem
  | number n =>
      exact points_numberCheck n _ rfl violation mem
  | null | boolean =>
      cases mem

theorem points_level :
    Points Tree.Ordered id path (level engine collectAll walk rules path place) := by
  have leavesBranches := fun schema mem => leaves schema (applied_branch mem)
  refine points_whenPassed (points_generalChecks leavesBranches ?_)
    (leaves_generalChecks lifts_extends.spreads leavesBranches)
    (points_kindCheck ordered leaves points) ?_
  · exact fun schema mem => points schema (applied_branch mem)
  · exact leaves_kind lifts_extends ordered (fun _ => puts_extend)
      fun schema mem => leaves schema (applied_part mem)

end Keywords

/-- Walking reports places below the path of the data. -/
theorem points_walk
    {options : ValidatorOptions}
    (height depth : Nat)
    {schema : Tree}
    (ordered : schema.Ordered) :
    WalkPoints (walk engine options height depth) schema := by
  intro path place
  refine walk_induction_at
    (fun schema path _ check => schema.Ordered → Points Tree.Ordered id path check)
    (fun _ _ _ _ => points_pass) (fun _ _ _ _ _ => points_raise _)
    (fun _ _ _ _ _ _ => points_raise _) ?_ height depth schema path place ordered
  intro height depth rules path place below ordered
  refine points_level ordered ?_ ?_
  · exact fun _ applied => leaves_walk_extends height depth (applied.ordered ordered)
  · exact fun schema applied path place => below schema path place (applied.ordered ordered)

end Schema

namespace Validator

open Schema

variable {engine : Pattern.Engine}

/-- The text of a violation's place leads to a node of the document that checking leaves, and the
node has the kind that the broken keyword is for. -/
theorem checkAndFill_violation_place
    (schema : Tree)
    (options : ValidatorOptions)
    (data data' : Tree)
    (report : Report)
    (engine : Pattern.Engine)
    (orderedSchema : schema.Ordered)
    (ordered : data.Ordered)
    (done : checkAndFill schema options data engine = (.ok report, data')) :
    ∀ violation ∈ report.violations, ∃ node, data'.atText? violation.place.text = some node ∧
      violation.breach.keyword.IsFor node := by
  intro violation mem
  unfold checkAndFill at done
  simp only [Prod.mk.injEq] at done
  obtain ⟨told, rfl⟩ := done
  have found : violation ∈ (outcome schema options data engine).violations :=
    (outcome_of_report told).2 ▸ mem
  obtain ⟨tokens, node, place, leads, isFor⟩ :=
    points_walk schema.height 0 orderedSchema Pointer.root Pointer.root data ordered violation found
  refine ⟨node, ?_, isFor⟩
  rw [place, Tree.atText?_text]
  exact leads

/-- The member with the empty name is filled in, and then lacks what it requires. The name of the
other one has a slash and a tilde. -/
def oddNames : Tree :=
  .object [("properties", .object [
    ("", .object [("default", .object []), ("required", .array [.string "x"])]),
    ("a/b~", .object [("maxLength", .number .zero)])])]

theorem ordered_oddNames :
    oddNames.Ordered := by
  have empty : (Tree.object []).Ordered := .object .nil (by simp)
  have names : (Tree.array [.string "x"]).Ordered := .array (by simp [Tree.Ordered.string])
  refine .singleton (.object (by unfold Members.Sorted; decide) ?_)
  simp only [List.forall_mem_cons]
  refine ⟨.object (by unfold Members.Sorted; decide) ?_, .singleton (.number _), by simp⟩
  simp only [List.forall_mem_cons]
  exact ⟨empty, names, by simp⟩

theorem checkAndFill_violation_place_oddNames :
    let left := Tree.object [("", .object []), ("a/b~", .string "x")]
    checkAndFill oddNames { collectAll := true } (.object [("a/b~", .string "x")]) =
        (.ok ⟨false, [⟨⟨[""]⟩, .missing "x"⟩, ⟨⟨["a/b~"]⟩, .tooLong 1 0⟩]⟩, left) ∧
      (∃ node, left.atText? "/" = some node ∧ Keyword.required.IsFor node) ∧
      ∃ node, left.atText? "/a~1b~0" = some node ∧ Keyword.maxLength.IsFor node := by
  intro left
  have done : checkAndFill oddNames { collectAll := true } (.object [("a/b~", .string "x")]) =
      (.ok ⟨false, [⟨⟨[""]⟩, .missing "x"⟩, ⟨⟨["a/b~"]⟩, .tooLong 1 0⟩]⟩, left) := rfl
  have places := checkAndFill_violation_place oddNames _ _ left _ _ ordered_oddNames
    (.singleton (.string "x")) done
  obtain ⟨missing, tooLong, _⟩ := by simpa only [List.forall_mem_cons] using places
  exact ⟨done, missing, tooLong⟩

end Validator

end JsonDoc
