import JsonDoc.Proofs.Schema.Concurrence
import JsonDoc.Proofs.Schema.Heedless
import JsonDoc.Proofs.Schema.Reordering
import JsonDoc.Proofs.Schema.Scalars

/-!
# Levels of reordered schemas

Keyword by keyword, the levels of a schema and of a reordered one concur if the walks with the
schemas below do. The places in the schema, which errors tell, differ.
-/

namespace JsonDoc
namespace Schema

open Check JsonDoc.Tree

variable {engine : Pattern.Engine}

/-- Walking with the one schema and with the other one concurs. -/
def WalksConcur (walk walk' : Walk) (schema schema' : Tree) : Prop :=
  ∀ path place place', Concurs Tree.Ordered (walk schema path place) (walk' schema' path place')

/-- Related parts, known to be parts. -/
theorem forall₂_mem
    {α β : Type} {R : α → β → Prop} {l : List α} {l' : List β}
    (h : List.Forall₂ R l l') :
    List.Forall₂ (fun a b => R a b ∧ a ∈ l ∧ b ∈ l') l l' := by
  obtain ⟨same, each⟩ := List.forall₂_iff_get.mp h
  exact List.forall₂_iff_get.mpr
    ⟨same, fun i before after => ⟨each i before after, List.get_mem _ _, List.get_mem _ _⟩⟩

section Levels

variable {walk walk' : Walk} {rules rules' : Rules} {path place place' : Pointer}
variable {collectAll : Bool} {allowed : List Tree → Prop}

/-! ## Values of keywords -/

theorem count_eq
    {keyword : Keyword} {n n' : Option Nat}
    (same : rules'.find? keyword = rules.find? keyword)
    (read : rules.count keyword place = .ok n)
    (read' : rules'.count keyword place' = .ok n') :
    n = n' := by
  rw [← count?_of_count read, ← count?_of_count read', count?, count?, number?, number?, same]

theorem number_eq
    {keyword : Keyword} {n n' : Option Binary64}
    (same : rules'.find? keyword = rules.find? keyword)
    (read : rules.number keyword place = .ok n)
    (read' : rules'.number keyword place' = .ok n') :
    n = n' := by
  rw [← number?_of_number read, ← number?_of_number read', number?, number?, same]

theorem bound_same
    {keyword exclusive : Keyword} {limit limit' : Option (Binary64 × Bool)}
    (same : rules'.find? keyword = rules.find? keyword)
    (sameFlag : rules'.find? exclusive = rules.find? exclusive)
    (read : rules.bound keyword exclusive place = .ok limit)
    (read' : rules'.bound keyword exclusive place' = .ok limit') :
    limit = limit' := by
  obtain ⟨flag, isSet, rfl⟩ := bound_eq read
  obtain ⟨flag', isSet', rfl⟩ := bound_eq read'
  have sameSet : flag = flag' := by
    rw [Bool.eq_iff_iff, isSet, isSet', Set, Set, sameFlag]
  rw [number?, number?, same, sameSet]

theorem types_ok
    {value : Tree} {names : List String}
    (read : Rules.types place value = .ok names) :
    Rules.types place' value = .ok names := by
  unfold Rules.types at read ⊢
  simp only [Except.bind] at read ⊢
  cases value with
  | string name =>
      simp only at read ⊢
      split at read
      · cases read
      · exact read
  | array items =>
      simp only at read ⊢
      cases listed : Rules.names? items with
      | none =>
          simp [listed] at read
      | some listed' =>
          simp only [listed] at read ⊢
          split at read
          · cases read
          · exact read
  | null | boolean | number | object =>
      cases read

/-! ## Keywords for all kinds -/

theorem concurs_enumCheck
    (same : rules'.find? .enumeration = rules.find? .enumeration) :
    Concurs Tree.Ordered (enumCheck rules path place) (enumCheck rules' path place') := by
  unfold enumCheck
  rw [same]
  cases rules.find? .enumeration with
  | none =>
      exact concurs_pass
  | some value =>
      cases value with
      | array options =>
          exact (looks_enumerated (.array options)).concurs
      | null | boolean | number | string | object =>
          exact concurs_raise

theorem concurs_typed
    (value : Tree) :
    Concurs Tree.Ordered (typed value path place) (typed value path place') := by
  unfold typed
  cases read : Rules.types place value with
  | error e =>
      exact concurs_raise
  | ok names =>
      rw [types_ok read]
      exact (looks_demand (fun node => names.any (Rules.hasType node)) path
        fun node => .wrongType names node.kindName).concurs

theorem concurs_typeCheck
    (same : rules'.find? .type = rules.find? .type) :
    Concurs Tree.Ordered (typeCheck rules path place) (typeCheck rules' path place') := by
  unfold typeCheck
  rw [same]
  cases rules.find? .type with
  | none =>
      exact concurs_pass
  | some value =>
      exact concurs_typed value

variable {checks checks' : List (Check Tree)}

theorem concurs_passesAll
    (h : Concurs Tree.Ordered (Check.all collectAll checks) (Check.all collectAll checks')) :
    Concurs Tree.Ordered (passesAll collectAll path checks)
      (passesAll collectAll path checks') := by
  intro node good passed passed' verdict verdict'
  rw [verdict_passesAll] at verdict verdict'
  rw [data_passesAll, data_passesAll]
  exact h node good passed passed' verdict verdict'

/-- Two checks that only look concur if they decide by what is read the same. -/
theorem concurs_of_reading
    {α : Type} {check check' : Check Tree}
    {read read' : Tree → Except SchemaError α} {decision : α → Bool}
    (looks : Looks check)
    (looks' : Looks check')
    (verdict : ∀ node, (check node).verdict = (read node).map decision)
    (verdict' : ∀ node, (check' node).verdict = (read' node).map decision)
    (same : ∀ node, node.Ordered → ∀ a a', read node = .ok a → read' node = .ok a' → a = a') :
    Concurs Tree.Ordered check check' := by
  intro node good passed passed' ok ok'
  rw [verdict] at ok
  rw [verdict'] at ok'
  rw [looks node, looks' node]
  cases first : read node with
  | error e =>
      rw [first] at ok
      cases ok
  | ok a =>
      cases second : read' node with
      | error e =>
          rw [second] at ok'
          cases ok'
      | ok a' =>
          obtain rfl := same node good a a' first second
          rw [first] at ok
          rw [second] at ok'
          cases ok
          cases ok'
          exact ⟨rfl, fun _ => ⟨rfl, good⟩⟩

theorem concurs_passesAny
    (h : List.Forall₂ (Concurs Tree.Ordered) checks checks') :
    Concurs Tree.Ordered (passesAny path checks) (passesAny path checks') :=
  concurs_of_reading (looks_passesAny _) (looks_passesAny _) (verdict_passesAny _)
    (verdict_passesAny _) fun _ good => firstPassed_concurs h good 0

theorem concurs_passesNone
    (h : List.Forall₂ (Concurs Tree.Ordered) checks checks') :
    Concurs Tree.Ordered (passesNone path checks) (passesNone path checks') :=
  concurs_of_reading (looks_passesNone _) (looks_passesNone _) (verdict_passesNone _)
    (verdict_passesNone _) fun _ good => firstPassed_concurs h good 0

theorem concurs_passesOne
    (h : List.Forall₂ (Concurs Tree.Ordered) checks checks') :
    Concurs Tree.Ordered (passesOne path checks) (passesOne path checks') :=
  concurs_of_reading (looks_passesOne _) (looks_passesOne _) (verdict_passesOne _)
    (verdict_passesOne _) fun _ good => countPassed_concurs h good 0

section Walks

-- the walks with the schemas below concur
variable (below : ∀ schema schema', Child (.object rules) schema → Child (.object rules') schema' →
  Reordered allowed schema schema' → WalksConcur walk walk' schema schema')

include below

theorem concurs_branches
    {keyword : Keyword}
    (combines : keyword ∈ [.allOf, .anyOf, .oneOf, .not])
    {schemas schemas' : List Tree}
    (listed : Branches rules keyword schemas)
    (listed' : Branches rules' keyword schemas')
    (h : List.Forall₂ (Reordered allowed) schemas schemas') :
    List.Forall₂ (Concurs Tree.Ordered) (branches walk keyword schemas path place)
      (branches walk' keyword schemas' path place') := by
  obtain ⟨same, each⟩ := List.forall₂_iff_get.mp h
  unfold branches
  refine List.forall₂_iff_get.mpr ⟨by simpa using same, fun i before after => ?_⟩
  rw [List.length_mapIdx] at before after
  have concurs := below schemas[i] schemas'[i] (listed.child (List.getElem_mem before) combines)
    (listed'.child (List.getElem_mem after) combines) (each i before after)
  simpa using concurs path _ _

theorem concurs_combined
    {keyword : Keyword} {combine : List (Check Tree) → Check Tree}
    (combines : keyword ∈ [.allOf, .anyOf, .oneOf, .not])
    (related : RelatedKeyword allowed rules rules' keyword)
    (h : ∀ checks checks', List.Forall₂ (Concurs Tree.Ordered) checks checks' →
      Concurs Tree.Ordered (combine checks) (combine checks')) :
    Concurs Tree.Ordered (combined walk rules path place keyword combine)
      (combined walk' rules' path place' keyword combine) := by
  unfold combined
  cases found : rules.find? keyword with
  | none =>
      rw [related.none found]
      exact concurs_pass
  | some value =>
      obtain ⟨value', found', relatedValue⟩ := related.some found
      rw [found']
      cases value with
      | array schemas =>
          obtain ⟨schemas', rfl, each⟩ := relatedValue.array
          exact h _ _ (concurs_branches below combines (Or.inl found) (Or.inl found') each)
      | object schema =>
          obtain ⟨schema', rfl, reordered⟩ := relatedValue.object (by
            rintro rfl
            simp at combines)
          by_cases isNot : keyword = .not
          · subst isNot
            exact h _ _ (concurs_branches below combines (Or.inr ⟨rfl, _, found, rfl⟩)
              (Or.inr ⟨rfl, _, found', rfl⟩) (.cons reordered .nil))
          · simp only [Rules.schemas, if_neg isNot]
            exact concurs_raise
      | null | boolean | number | string =>
          exact concurs_raise

theorem concurs_generalChecks
    (others : ∀ keyword ≠ Keyword.allOf, RelatedKeyword allowed rules rules' keyword)
    (allOf : Concurs Tree.Ordered
      (combined walk rules path place .allOf (passesAll collectAll path))
      (combined walk' rules' path place' .allOf (passesAll collectAll path))) :
    Concurs Tree.Ordered (Check.all collectAll (generalChecks collectAll walk rules path place))
      (Check.all collectAll (generalChecks collectAll walk' rules' path place')) := by
  rw [generalChecks_eq, generalChecks_eq]
  refine concurs_all ?_
  refine .cons (concurs_enumCheck ((others .enumeration (by decide)).plain (by decide))) ?_
  refine .cons (concurs_typeCheck ((others .type (by decide)).plain (by decide))) ?_
  refine .cons allOf ?_
  refine .cons (concurs_combined below (by decide) (others .anyOf (by decide))
    fun _ _ => concurs_passesAny) ?_
  refine .cons (concurs_combined below (by decide) (others .oneOf (by decide))
    fun _ _ => concurs_passesOne) ?_
  exact .cons (concurs_combined below (by decide) (others .not (by decide))
    fun _ _ => concurs_passesNone) .nil

/-! ## Objects -/

omit below in
theorem fillMember_congr
    (key : String)
    (path : Pointer)
    {schema schema' : Tree}
    (same : schema'.get? Keyword.default.name = schema.get? Keyword.default.name)
    (members : Members Tree) :
    fillMember key schema' path members = fillMember key schema path members := by
  simp only [fillMember, same]

omit below in
theorem concurs_property
    {key : String} {schema schema' : Tree}
    (default : OrderedDefault schema)
    (same : schema'.get? Keyword.default.name = schema.get? Keyword.default.name)
    (h : WalksConcur walk walk' schema schema') :
    Concurs OrderedMembers (property walk key schema path place)
      (property walk' key schema' path place') := by
  intro members good passed passed' verdict verdict'
  have goodFilled : OrderedMembers (fillMember key schema path members).1 :=
    ordered_fillMember default good
  have filled := fillMember_congr key path same members
  cases found : (fillMember key schema path members).1.get? key with
  | none =>
      rw [property_of_missing found] at verdict ⊢
      rw [property_of_missing (by rw [filled, found]), filled] at verdict' ⊢
      cases verdict
      cases verdict'
      exact ⟨rfl, fun _ => ⟨rfl, goodFilled⟩⟩
  | some child =>
      rw [property_of_get? found] at verdict ⊢
      rw [property_of_get? (by rw [filled, found]), filled] at verdict' ⊢
      obtain ⟨rfl, left⟩ :=
        h (path.child key) _ _ child (goodFilled.member found) _ _ verdict verdict'
      refine ⟨rfl, fun holds => ?_⟩
      obtain ⟨sameLeft, goodLeft⟩ := left holds
      simp only [Outcome.map]
      rw [sameLeft]
      exact ⟨rfl, goodFilled.replace goodLeft⟩

theorem concurs_properties
    (ordered : (Tree.object rules).Ordered)
    (related : RelatedKeyword allowed rules rules' .properties) :
    Concurs OrderedMembers (properties collectAll walk rules path place)
      (properties collectAll walk' rules' path place') := by
  unfold properties
  cases found : rules.find? .properties with
  | none =>
      rw [related.none found]
      exact concurs_pass
  | some value =>
      obtain ⟨value', found', relatedValue⟩ := related.some found
      rw [found']
      cases value with
      | object schemas =>
          obtain ⟨schemas', rfl, each⟩ := relatedValue.members
          refine concurs_all ?_
          rw [List.forall₂_map_left_iff, List.forall₂_map_right_iff]
          refine (forall₂_mem each).imp ?_
          rintro ⟨key, schema⟩ ⟨_, schema'⟩ ⟨⟨rfl, reordered⟩, mem, mem'⟩
          have orderedSchema : schema.Ordered := ordered_entry (ordered.member found) mem
          exact concurs_property (ordered_default orderedSchema) (reordered.default orderedSchema)
            (below _ _ (.property found mem) (.property found' mem') reordered)
      | null | boolean | number | string | array =>
          exact concurs_raise

omit below in
theorem concurs_required
    (same : rules'.find? .required = rules.find? .required) :
    Concurs OrderedMembers (required collectAll rules path place)
      (required collectAll rules' path place') := by
  unfold required
  rw [same]
  cases rules.find? .required with
  | none =>
      exact concurs_pass
  | some value =>
      cases value with
      | array names =>
          refine concurs_all ?_
          rw [List.forall₂_map_left_iff, List.forall₂_map_right_iff, List.forall₂_same]
          intro value _
          cases value with
          | string name =>
              exact (looks_requiredName (.string name)).concurs
          | null | boolean | number | array | object =>
              exact concurs_raise
      | null | boolean | number | string | object =>
          exact concurs_raise

omit below in
theorem concurs_count
    {α : Type} {I : α → Prop} {keyword : Keyword}
    (same : rules'.find? keyword = rules.find? keyword)
    {condition : Nat → α → Bool} {breach : Nat → α → Breach} :
    Concurs I
      (ofKeyword (rules.count keyword place) fun bound data =>
        demand (condition bound data) path (breach bound data) data)
      (ofKeyword (rules'.count keyword place') fun bound data =>
        demand (condition bound data) path (breach bound data) data) :=
  concurs_ofKeyword (fun _ _ => count_eq same)
    fun bound => (looks_demand (condition bound) path (breach bound)).concurs

variable (others : ∀ keyword ≠ Keyword.allOf, RelatedKeyword allowed rules rules' keyword)

include others

omit below in
theorem find?_plain
    (keyword : Keyword)
    (noSchemas : keyword ∉ schemaKeywords) :
    rules'.find? keyword = rules.find? keyword := by
  refine (others keyword ?_).plain noSchemas
  rintro rfl
  simp [schemaKeywords] at noSchemas

theorem concurs_objectCheck
    (ordered : (Tree.object rules).Ordered) :
    Concurs OrderedMembers (objectCheck collectAll walk rules path place)
      (objectCheck collectAll walk' rules' path place') := by
  have plain := find?_plain others
  have unsupported : (Keyword.unsupported.find? fun keyword => (rules'.find? keyword).isSome) =
      Keyword.unsupported.find? fun keyword => (rules.find? keyword).isSome := by
    simp only [Keyword.unsupported, List.find?_cons, List.find?_nil,
      plain .patternProperties (by decide),
      plain .additionalProperties (by decide), plain .dependencies (by decide)]
  unfold objectCheck
  rw [unsupported]
  split
  · exact concurs_raise
  · refine concurs_all ?_
    refine .cons (concurs_properties below ordered (others .properties (by decide))) ?_
    refine .cons (concurs_required (plain .required (by decide))) ?_
    refine .cons (concurs_count (plain .minProperties (by decide))) ?_
    exact .cons (concurs_count (plain .maxProperties (by decide))) .nil

/-! ## Arrays -/

omit others in
theorem concurs_governedItems
    {schemas schemas' : List Tree}
    (found : rules.find? .items = some (.array schemas))
    (found' : rules'.find? .items = some (.array schemas'))
    (each : List.Forall₂ (Reordered allowed) schemas schemas') :
    Concurs OrderedItems (governedItems collectAll walk schemas path place)
      (governedItems collectAll walk' schemas' path place') := by
  obtain ⟨sameLength, related⟩ := List.forall₂_iff_get.mp each
  unfold governedItems
  rw [← sameLength]
  refine concurs_part (concurs_eachItem (fun index => ?_) 0)
    (fun items good item mem => good item (List.mem_of_mem_take mem)) ?_
  · by_cases before : index < schemas.length
    · have after : index < schemas'.length := sameLength ▸ before
      rw [List.getElem?_eq_getElem before, List.getElem?_eq_getElem after]
      exact below _ _ (.item found (List.getElem_mem before))
        (.item found' (List.getElem_mem after)) (related index before after) _ _ _
    · have few : schemas.length ≤ index := Nat.le_of_not_lt before
      rw [List.getElem?_eq_none few, List.getElem?_eq_none (sameLength ▸ few)]
      exact concurs_pass
  · intro items governed good goodGoverned item mem
    rcases List.mem_append.mp mem with mem | mem
    · exact goodGoverned item mem
    · exact good item (List.mem_of_mem_drop mem)

theorem concurs_extraItems
    {schemas schemas' : List Tree}
    (found : rules.find? .items = some (.array schemas))
    (found' : rules'.find? .items = some (.array schemas'))
    (governed : Nat) :
    Concurs OrderedItems (extraItems collectAll walk rules governed path place)
      (extraItems collectAll walk' rules' governed path place') := by
  have related := others .additionalItems (by decide)
  unfold extraItems
  refine concurs_ite concurs_pass ?_
  cases additional : rules.find? .additionalItems with
  | none =>
      rw [related.none additional]
      exact concurs_pass
  | some value =>
      obtain ⟨value', additional', relatedValue⟩ := related.some additional
      rw [additional']
      cases value with
      | object schema =>
          obtain ⟨schema', rfl, reordered⟩ := relatedValue.object (by decide)
          refine concurs_part (concurs_eachItem (fun index => below _ _
              (.additionalItems found additional) (.additionalItems found' additional')
              reordered _ _ _) governed)
            (fun items good item mem => good item (List.mem_of_mem_drop mem)) ?_
          intro items extra good goodExtra item mem
          rcases List.mem_append.mp mem with mem | mem
          · exact good item (List.mem_of_mem_take mem)
          · exact goodExtra item mem
      | boolean allowed =>
          obtain rfl := relatedValue.scalar rfl rfl
          cases allowed with
          | true =>
              exact concurs_pass
          | false =>
              exact Looks.concurs fun _ => rfl
      | array schemas =>
          obtain ⟨schemas', rfl, _⟩ := relatedValue.array
          exact (looks_violate path _).concurs
      | null | number | string =>
          obtain rfl := relatedValue.scalar rfl rfl
          exact (looks_violate path _).concurs

theorem concurs_itemsCheck :
    Concurs OrderedItems (itemsCheck collectAll walk rules path place)
      (itemsCheck collectAll walk' rules' path place') := by
  have related := others .items (by decide)
  unfold itemsCheck
  cases found : rules.find? .items with
  | none =>
      rw [related.none found]
      exact concurs_pass
  | some value =>
      obtain ⟨value', found', relatedValue⟩ := related.some found
      rw [found']
      cases value with
      | object schema =>
          obtain ⟨schema', rfl, reordered⟩ := relatedValue.object (by decide)
          exact concurs_eachItem
            (fun _ => below _ _ (.items found) (.items found') reordered _ _ _) 0
      | array schemas =>
          obtain ⟨schemas', rfl, each⟩ := relatedValue.array
          simp only
          rw [each.length_eq]
          refine concurs_all (.cons (concurs_governedItems below found found' each) ?_)
          exact .cons (concurs_extraItems below others found found' _) .nil
      | null | boolean | number | string =>
          exact concurs_raise

omit below in
theorem concurs_unique :
    Concurs OrderedItems (unique rules path place) (unique rules' path place') := by
  unfold unique
  rw [find?_plain others .uniqueItems (by decide)]
  cases found : rules.find? .uniqueItems with
  | none =>
      exact concurs_pass
  | some value =>
      cases value with
      | boolean asked =>
          have looks : Looks (unique rules path place) := looks_unique
          unfold unique at looks
          rw [found] at looks
          cases asked <;> exact looks.concurs
      | null | number | string | array | object =>
          exact concurs_raise

theorem concurs_arrayCheck :
    Concurs OrderedItems (arrayCheck collectAll walk rules path place)
      (arrayCheck collectAll walk' rules' path place') := by
  have plain := find?_plain others
  unfold arrayCheck
  refine concurs_all ?_
  refine .cons (concurs_itemsCheck below others) ?_
  refine .cons (concurs_count (plain .minItems (by decide))) ?_
  refine .cons (concurs_count (plain .maxItems (by decide))) ?_
  exact .cons (concurs_unique others) .nil

/-! ## Scalars -/

omit below

theorem concurs_stringCheck
    (content : String) :
    Concurs Tree.Ordered (stringCheck engine collectAll rules content path place)
      (stringCheck engine collectAll rules' content path place') := by
  have plain := find?_plain others
  unfold stringCheck
  refine concurs_all ?_
  refine .cons (concurs_count (plain .minLength (by decide))) ?_
  refine .cons (concurs_count (plain .maxLength (by decide))) ?_
  refine .cons ?_ .nil
  unfold matching
  rw [plain .pattern (by decide)]
  cases rules.find? .pattern with
  | none =>
      exact concurs_pass
  | some value =>
      cases value with
      | string source =>
          simp only
          cases engine.compile (Escape.decodeText source) with
          | none =>
              exact concurs_raise
          | some occursIn =>
              exact (looks_demand _ _ _).concurs
      | null | boolean | number | array | object =>
          exact concurs_raise

theorem concurs_numberCheck
    (n : Binary64) :
    Concurs Tree.Ordered (numberCheck collectAll rules n path place)
      (numberCheck collectAll rules' n path place') := by
  have plain := find?_plain others
  unfold numberCheck
  refine concurs_all (.cons ?_ (.cons ?_ (.cons ?_ .nil)))
  · refine concurs_ofKeyword
      (fun _ _ => number_eq (plain .multipleOf (by decide))) fun divisor => ?_
    split
    · exact concurs_raise
    · exact (looks_demand _ _ _).concurs
  · refine concurs_ofKeyword (fun _ _ => bound_same (plain .maximum (by decide))
      (plain .exclusiveMaximum (by decide))) fun bound => ?_
    exact (looks_demand _ _ _).concurs
  · refine concurs_ofKeyword (fun _ _ => bound_same (plain .minimum (by decide))
      (plain .exclusiveMinimum (by decide))) fun bound => ?_
    exact (looks_demand _ _ _).concurs

/-! ## Levels -/

include below

theorem concurs_kindCheck
    (ordered : (Tree.object rules).Ordered) :
    Concurs Tree.Ordered (kindCheck engine collectAll walk rules path place)
      (kindCheck engine collectAll walk' rules' path place') := by
  intro node good passed passed' verdict verdict'
  cases node with
  | object members =>
      obtain ⟨same, left⟩ :=
        concurs_objectCheck below others ordered members good _ _ verdict verdict'
      refine ⟨same, fun holds => ?_⟩
      obtain ⟨sameLeft, goodLeft⟩ := left holds
      exact ⟨congrArg Tree.object sameLeft, goodLeft⟩
  | array items =>
      obtain ⟨same, left⟩ :=
        concurs_arrayCheck below others items (fun _ => good.item) _ _ verdict verdict'
      refine ⟨same, fun holds => ?_⟩
      obtain ⟨sameLeft, goodLeft⟩ := left holds
      exact ⟨congrArg Tree.array sameLeft, .array goodLeft⟩
  | string content =>
      exact concurs_stringCheck others content _ good _ _ verdict verdict'
  | number n =>
      exact concurs_numberCheck others n _ good _ _ verdict verdict'
  | null | boolean =>
      exact concurs_pass _ good _ _ verdict verdict'

/-- Levels concur if the branches of `allOf` and all other keywords do. -/
theorem concurs_level
    (ordered : (Tree.object rules).Ordered)
    (allOf : Concurs Tree.Ordered
      (combined walk rules path place .allOf (passesAll collectAll path))
      (combined walk' rules' path place' .allOf (passesAll collectAll path))) :
    Concurs Tree.Ordered (level engine collectAll walk rules path place)
      (level engine collectAll walk' rules' path place') :=
  concurs_whenPassed (concurs_generalChecks below others allOf)
    (concurs_kindCheck below others ordered)

end Walks

end Levels

end Schema
end JsonDoc
