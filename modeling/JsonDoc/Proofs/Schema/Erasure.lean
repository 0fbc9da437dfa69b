import JsonDoc.Proofs.Schema.Structural
import JsonDoc.Proofs.Schema.Injection
import JsonDoc.Proofs.Schema.Refilling

/-!
# What is filled depends on the structural keywords only

A document that a schema finds valid is found valid by its structural schema, and is filled the
same (`checkAndFill_structural`). All keywords that are not structural only look, so a check that
is passed with them is passed without them and leaves the same data, `Check.Permits`. That relation
goes through the checks of both schemas side by side.

A check that fails has filled in some defaults too. They are defaults of the structural schema,
since the scopes of both schemas correspond, `Scope.Keeps`.
-/

namespace JsonDoc

namespace Check

variable {α : Type} {check check' first first' second second' : Check α}
variable {checks checks' before before' after after' : List (Check α)} {collectAll : Bool}
variable {data out : α}

/-- What passes the first check passes the second one and is left the same by it. -/
def Permits (check check' : Check α) : Prop :=
  ∀ data out, (check data).Passes out → (check' data).Passes out

theorem permits_raise
    {e : SchemaError} :
    Permits (raise e) check' :=
  fun _ _ passes => absurd passes not_passes_raise

theorem permits_violate
    {place : Pointer} {breach : Breach} :
    Permits (violate place breach) check' :=
  fun _ _ passes => absurd passes not_passes_violate

theorem Permits.sequence
    (sequence : Sequence check first second)
    (sequence' : Sequence check' first' second')
    (h : Permits first first')
    (k : Permits second second') :
    Permits check check' := by
  intro data out passes
  obtain ⟨mid, passesFirst, passesSecond⟩ := (sequence data out).mp passes
  exact (sequence' data out).mpr ⟨mid, h data mid passesFirst, k mid out passesSecond⟩

theorem permits_all
    (h : List.Forall₂ Permits checks checks') :
    Permits (all collectAll checks) (all collectAll checks') := by
  induction h with
  | nil =>
      exact fun _ _ passes => passes
  | cons first _ ih =>
      exact .sequence (sequence_all_cons _ _) (sequence_all_cons _ _) first ih

theorem permits_eachItem
    {check check' : Nat → Check Tree}
    (h : ∀ index, Permits (check index) (check' index)) :
    ∀ index, Permits (eachItem collectAll check index) (eachItem collectAll check' index) := by
  intro index items
  induction items generalizing index with
  | nil =>
      exact fun _ passes => passes
  | cons item items ih =>
      intro out passes
      obtain ⟨first, rest, passesFirst, passesRest, rfl⟩ := passes_eachItem_cons.mp passes
      exact passes_eachItem_cons.mpr
        ⟨first, rest, h index item first passesFirst, ih (index + 1) rest passesRest, rfl⟩

/-- Where all checks but one only look, the one is passed. -/
theorem passes_of_others_look
    (looks : ∀ other ∈ before ++ after, Looks other)
    (passes : (all collectAll (before ++ check :: after) data).Passes out) :
    (check data).Passes out := by
  induction before with
  | nil =>
      obtain ⟨mid, passesHere, passesRest⟩ := (sequence_all_cons _ _ data out).mp passes
      have still : (all collectAll after mid).data = mid := looks_all looks mid
      rw [← passesRest.2, still]
      exact passesHere
  | cons other before ih =>
      obtain ⟨here, others⟩ := List.forall_mem_cons.mp looks
      obtain ⟨_, ⟨_, rfl⟩, passesRest⟩ := (sequence_all_cons _ _ data out).mp passes
      rw [here data] at passesRest
      exact ih others passesRest

/-- Checks that always pass are passed in a row. -/
theorem passes_all_idle
    (idle : ∀ other ∈ checks, other = pass) :
    (all collectAll checks data).Passes data := by
  induction checks with
  | nil =>
      exact passes_pass.mpr rfl
  | cons other checks ih =>
      obtain ⟨here, others⟩ := List.forall_mem_cons.mp idle
      rw [here]
      exact (sequence_all_cons _ _ data data).mpr ⟨data, passes_pass.mpr rfl, ih others⟩

/-- Where all checks but one always pass, the one decides. -/
theorem passes_of_others_idle
    (idle : ∀ other ∈ before ++ after, other = pass)
    (passes : (check data).Passes out) :
    (all collectAll (before ++ check :: after) data).Passes out := by
  induction before with
  | nil =>
      exact (sequence_all_cons _ _ data out).mpr ⟨out, passes, passes_all_idle idle⟩
  | cons other before ih =>
      obtain ⟨here, others⟩ := List.forall_mem_cons.mp idle
      rw [here]
      exact (sequence_all_cons _ _ data out).mpr ⟨data, passes_pass.mpr rfl, ih others⟩

/-- Among checks that only look, and among checks that always pass. -/
theorem permits_among
    (before before' : List (Check α))
    (looks : ∀ other ∈ before ++ after, Looks other)
    (idle : ∀ other ∈ before' ++ after', other = pass)
    (h : Permits check check') :
    Permits (all collectAll (before ++ check :: after))
      (all collectAll (before' ++ check' :: after')) :=
  fun data out passes =>
    passes_of_others_idle idle (h data out (passes_of_others_look looks passes))

end Check

namespace Schema

open Check JsonDoc.Tree

variable {engine : Pattern.Engine}

/-- What passes a schema passes its structural schema and is left the same. -/
def WalkPermits (walk walk' : Walk) (schema : Tree) : Prop :=
  ∀ path place place', Permits (walk schema path place) (walk' (structural schema) path place')

section Erased

variable {walk : Walk} {rules : Rules} {path place : Pointer} {collectAll : Bool}

/-! ## Keywords that are gone -/

theorem count_erased
    {keyword : Keyword}
    (erased : keyword ∉ structuralKeywords) :
    Rules.count (structuralRules rules) keyword place = .ok none := by
  simp [Rules.count, find?_erased rules erased]

theorem number_erased
    {keyword : Keyword}
    (erased : keyword ∉ structuralKeywords) :
    Rules.number (structuralRules rules) keyword place = .ok none := by
  simp [Rules.number, find?_erased rules erased]

theorem bound_erased
    {keyword exclusive : Keyword}
    (erased : keyword ∉ structuralKeywords)
    (erasedFlag : exclusive ∉ structuralKeywords) :
    Rules.bound (structuralRules rules) keyword exclusive place = .ok none := by
  simp [Rules.bound, Rules.exclusive, number_erased erased, find?_erased rules erasedFlag]

/-- Without their keywords scalars pass. -/
theorem passes_scalar_erased
    {data : Tree}
    (notObject : data.isObject = false)
    (notArray : data.isArray = false) :
    (kindCheck engine collectAll walk (structuralRules rules) path place data).Passes data := by
  cases data with
  | object _ =>
      cases notObject
  | array _ =>
      cases notArray
  | string content =>
      have noPattern : Rules.find? (structuralRules rules) .pattern = none :=
        find?_erased rules (by decide)
      refine passes_all_idle ?_
      simp only [List.forall_mem_cons]
      refine ⟨?_, ?_, ?_, by simp⟩
      · rw [count_erased (by decide), ofKeyword]
      · rw [count_erased (by decide), ofKeyword]
      · simp only [matching, noPattern]
  | number n =>
      refine passes_all_idle ?_
      simp only [List.forall_mem_cons]
      refine ⟨?_, ?_, ?_, by simp⟩
      · rw [number_erased (by decide), ofKeyword]
      · rw [bound_erased (by decide) (by decide), ofKeyword]
      · rw [bound_erased (by decide) (by decide), ofKeyword]
  | null | boolean =>
      exact passes_pass.mpr rfl

end Erased

section Levels

variable {walk walk' : Walk} {rules : Rules} {path place place' : Pointer} {collectAll : Bool}

/-! ## Keywords for all kinds -/

theorem permits_allOf
    (h : ∀ schema ∈ allOfSchemas rules, WalkPermits walk walk' schema) :
    Permits (combined walk rules path place .allOf (passesAll collectAll path))
      (combined walk' (structuralRules rules) path place' .allOf (passesAll collectAll path)) := by
  unfold combined
  rw [find?_structural rules (by decide)]
  cases found : rules.find? .allOf with
  | none =>
      exact fun _ _ passes => passes
  | some value =>
      cases value with
      | array schemas =>
          have branch : ∀ schema ∈ schemas, WalkPermits walk walk' schema := by
            intro schema mem
            exact h schema (by simpa only [allOfSchemas, found] using mem)
          have each : List.Forall₂ Permits (branches walk .allOf schemas path place)
              (branches walk' .allOf (schemas.map structural) path place') := by
            refine List.forall₂_iff_get.mpr ⟨by simp [branches], ?_⟩
            intro i inside inside'
            simp only [branches, List.get_eq_getElem, List.getElem_mapIdx, List.getElem_map]
            exact branch _ (List.getElem_mem _) _ _ _
          intro data out passes
          simp only [Option.map_some, structuralValue, true_or, if_true, structuralAll_eq]
          exact passes_passesAll.mpr (permits_all each data out (passes_passesAll.mp passes))
      | object members =>
          exact permits_raise
      | null | boolean | number | string =>
          exact permits_raise

theorem permits_generalChecks
    (h : ∀ schema ∈ allOfSchemas rules, WalkPermits walk walk' schema) :
    Permits (Check.all collectAll (generalChecks collectAll walk rules path place))
      (Check.all collectAll
        (generalChecks collectAll walk' (structuralRules rules) path place')) := by
  have absent {keyword : Keyword} (erased : keyword ∉ structuralKeywords) :
      Rules.find? (structuralRules rules) keyword = none := find?_erased rules erased
  rw [generalChecks_eq, generalChecks_eq]
  refine permits_among [_, _] [_, _] ?_ ?_ (permits_allOf h)
  · simp only [List.cons_append, List.nil_append, List.forall_mem_cons]
    exact ⟨looks_enumCheck, looks_typeCheck, looks_combined .anyOf looks_passesAny,
      looks_combined .oneOf looks_passesOne, looks_combined .not looks_passesNone, by simp⟩
  · simp only [List.cons_append, List.nil_append, List.forall_mem_cons]
    exact ⟨enumCheck_of_absent (absent (by decide)), typeCheck_of_absent (absent (by decide)),
      combined_of_absent (absent (by decide)), combined_of_absent (absent (by decide)),
      combined_of_absent (absent (by decide)), by simp⟩

/-! ## Objects -/

theorem fillMember_structural
    (key : String)
    (schema : Tree)
    (members : Members Tree) :
    fillMember key (structural schema) path members = fillMember key schema path members := by
  simp only [fillMember, default_structural]

theorem permits_property
    {schema : Tree}
    (key : String)
    (h : WalkPermits walk walk' schema) :
    Permits (property walk key schema path place)
      (property walk' key (structural schema) path place') := by
  intro members out passes
  rw [passes_property, fillMember_structural]
  rcases passes_property.mp passes with missing | ⟨child, child', here, passesChild, eq⟩
  · exact Or.inl missing
  · exact Or.inr ⟨child, child', here, h _ _ _ child child' passesChild, eq⟩

theorem permits_properties
    (h : ∀ entry ∈ propertySchemas rules, WalkPermits walk walk' entry.2) :
    Permits (properties collectAll walk rules path place)
      (properties collectAll walk' (structuralRules rules) path place') := by
  unfold properties
  rw [find?_structural rules (by decide)]
  cases found : rules.find? .properties with
  | none =>
      exact fun _ _ passes => passes
  | some value =>
      cases value with
      | object schemas =>
          simp only [propertySchemas, found] at h
          simp only [Option.map_some, structuralValue, if_true, structuralMembers_eq, List.map_map]
          refine permits_all ?_
          rw [List.forall₂_map_left_iff, List.forall₂_map_right_iff, List.forall₂_same]
          exact fun entry mem => permits_property entry.1 (h entry mem)
      | null | boolean | number | string | array =>
          exact permits_raise

theorem permits_objectCheck
    (h : ∀ entry ∈ propertySchemas rules, WalkPermits walk walk' entry.2) :
    Permits (objectCheck collectAll walk rules path place)
      (objectCheck collectAll walk' (structuralRules rules) path place') := by
  have absent {keyword : Keyword} (erased : keyword ∉ structuralKeywords) :
      Rules.find? (structuralRules rules) keyword = none := find?_erased rules erased
  have supported : (Keyword.unsupported.find? fun keyword =>
      (Rules.find? (structuralRules rules) keyword).isSome) = none := by
    refine List.find?_eq_none.mpr ?_
    intro keyword mem
    have erased : keyword ∉ structuralKeywords := by
      revert keyword
      decide
    simp [absent erased]
  unfold objectCheck
  rw [supported]
  split
  · exact permits_raise
  · refine permits_among [] [] ?_ ?_ (permits_properties h)
    · simp only [List.nil_append, List.forall_mem_cons]
      exact ⟨looks_required, looks_count, looks_count, by simp⟩
    · simp only [List.nil_append, List.forall_mem_cons]
      refine ⟨?_, ?_, ?_, by simp⟩
      · have none : Rules.find? (structuralRules rules) .required = none := absent (by decide)
        simp only [required, none]
      · rw [count_erased (by decide), ofKeyword]
      · rw [count_erased (by decide), ofKeyword]

/-! ## Arrays -/

section Items

variable (h : ∀ schema ∈ itemSchemas rules, WalkPermits walk walk' schema)

include h

theorem permits_positional
    {schemas : List Tree}
    (found : rules.find? .items = some (.array schemas))
    (index : Nat) :
    Permits (positionalCheck walk rules schemas path place index)
      (positionalCheck walk' (structuralRules rules) (schemas.map structural) path place'
        index) := by
  have isItem {schema : Tree} (item : itemSchema? rules index = some schema) :
      WalkPermits walk walk' schema := h schema (mem_itemSchemas item)
  unfold positionalCheck
  rw [List.getElem?_map]
  cases own : schemas[index]? with
  | some schema =>
      exact isItem (by simp only [itemSchema?, found, own]) _ _ _
  | none =>
      simp only [Option.map_none, extraCheck]
      rw [find?_structural rules (by decide)]
      cases additional : rules.find? .additionalItems with
      | none =>
          exact fun _ _ passes => passes
      | some value =>
          cases value with
          | object schema =>
              simp only [itemSchema?, found, own, additional] at isItem
              exact isItem rfl _ _ _
          | boolean allowed =>
              cases allowed with
              | true => exact fun _ _ passes => passes
              | false => exact permits_violate
          | null | number | string | array =>
              exact permits_violate

theorem permits_itemsCheck :
    Permits (itemsCheck collectAll walk rules path place)
      (itemsCheck collectAll walk' (structuralRules rules) path place') := by
  unfold itemsCheck
  rw [find?_structural rules (by decide)]
  cases found : rules.find? .items with
  | none =>
      exact fun _ _ passes => passes
  | some value =>
      cases value with
      | object schema =>
          have isItem : WalkPermits walk walk' (.object schema) :=
            h _ (by simp [itemSchemas, found])
          exact permits_eachItem (fun index => isItem _ _ _) 0
      | array schemas =>
          intro items out passes
          simp only [Option.map_some, structuralValue, or_true, if_true, structuralAll_eq]
          refine (passes_positional _ items out).mpr ?_
          exact permits_eachItem (fun index => permits_positional h found index) 0 items out
            ((passes_positional schemas items out).mp passes)
      | null | boolean | number | string =>
          exact permits_raise

theorem permits_arrayCheck :
    Permits (arrayCheck collectAll walk rules path place)
      (arrayCheck collectAll walk' (structuralRules rules) path place') := by
  have none : Rules.find? (structuralRules rules) .uniqueItems = none :=
    find?_erased rules (by decide)
  unfold arrayCheck
  refine permits_among [] [] ?_ ?_ (permits_itemsCheck h)
  · simp only [List.nil_append, List.forall_mem_cons]
    exact ⟨looks_count, looks_count, looks_unique, by simp⟩
  · simp only [List.nil_append, List.forall_mem_cons]
    refine ⟨?_, ?_, ?_, by simp⟩
    · rw [count_erased (by decide), ofKeyword]
    · rw [count_erased (by decide), ofKeyword]
    · funext items
      simp only [unique, none]

end Items

/-! ## Levels -/

theorem permits_kindCheck
    (h : ∀ schema ∈ partSchemas rules, WalkPermits walk walk' schema) :
    Permits (kindCheck engine collectAll walk rules path place)
      (kindCheck engine collectAll walk' (structuralRules rules) path place') := by
  intro data out passes
  cases data with
  | object members =>
      obtain ⟨members', passed, rfl⟩ := passes_map.mp passes
      refine passes_map.mpr ⟨members', ?_, rfl⟩
      exact permits_objectCheck (fun entry mem => h entry.2 (part_of_property mem)) members members'
        passed
  | array items =>
      obtain ⟨items', passed, rfl⟩ := passes_map.mp passes
      refine passes_map.mpr ⟨items', ?_, rfl⟩
      exact permits_arrayCheck (fun schema mem => h schema (part_of_item mem)) items items' passed
  | null | boolean | number | string =>
      obtain ⟨_, rfl⟩ := passes
      rw [kindCheck_scalar rfl rfl]
      exact passes_scalar_erased rfl rfl

theorem permits_level
    (h : ∀ schema, Applied (.object rules) schema → WalkPermits walk walk' schema) :
    Permits (level engine collectAll walk rules path place)
      (level engine collectAll walk' (structuralRules rules) path place') :=
  .sequence (sequence_whenPassed _ _) (sequence_whenPassed _ _)
    (permits_generalChecks fun schema mem => h schema (applied_branch mem))
    (permits_kindCheck fun schema mem => h schema (applied_part mem))

end Levels

/-! ## Walks -/

/-- Each schema is as high as it is, so both walks go on as far as the schemas do. -/
theorem walkPermits_structural
    (options : ValidatorOptions)
    (height : Nat) :
    ∀ (height' depth : Nat) (schema : Tree), schema.height ≤ height →
      (structural schema).height ≤ height' →
      WalkPermits (walk engine options height depth) (walk engine options height' depth)
        schema := by
  induction height with
  | zero =>
      intro _ _ schema low
      cases schema <;> simp [Tree.height] at low
  | succ height ih =>
      intro height' depth schema low low' path place place'
      cases schema with
      | object rules =>
          cases height' with
          | zero =>
              simp [structural, Tree.height] at low'
          | succ height' =>
              rw [walk, walk, structural, applyOnce, applyOnce]
              cases options.maxDepth.filter (· ≤ depth) with
              | some limit =>
                  exact permits_raise
              | none =>
                  refine permits_level fun schema applied => ih height' (depth + 1) schema ?_ ?_
                  · have := applied.child.height_lt
                    omega
                  · have := applied.structural.child.height_lt
                    omega
      | null | boolean | number | string | array =>
          exact permits_raise

/-! ## Scopes -/

namespace Scope

variable {scope scope' : Scope}

/-- The structural schemas of what one scope applies are in the other scope. -/
def Keeps
    (scope scope' : Scope) : Prop :=
  ∀ schema, scope schema → scope' (structural schema)

theorem keeps_of
    {given given' : Tree → Prop}
    (h : ∀ schema, given schema → given' (structural schema)) :
    Keeps (Of given) (Of given') := by
  intro schema inScope
  induction inScope with
  | given isGiven =>
      exact .given (h _ isGiven)
  | @branch rules schema _ mem ih =>
      refine .branch ih ?_
      rw [allOfSchemas_structural]
      exact List.mem_map_of_mem mem

theorem keeps_root
    (schema : Tree) :
    Keeps (root schema) (root (structural schema)) :=
  keeps_of fun _ same => congrArg structural same

theorem Keeps.property
    (keeps : Keeps scope scope')
    {key : String} {schema : Tree}
    (h : ∃ rules, scope (.object rules) ∧ (key, schema) ∈ propertySchemas rules) :
    ∃ rules, scope' (.object rules) ∧ (key, structural schema) ∈ propertySchemas rules := by
  obtain ⟨rules, inScope, mem⟩ := h
  refine ⟨structuralRules rules, keeps _ inScope, ?_⟩
  rw [propertySchemas_structural]
  exact List.mem_map_of_mem mem

theorem Keeps.member
    (keeps : Keeps scope scope')
    (key : String) :
    Keeps (scope.member key) (scope'.member key) :=
  keeps_of fun _ isProperty => keeps.property isProperty

theorem Keeps.item
    (keeps : Keeps scope scope')
    (index : Nat) :
    Keeps (scope.item index) (scope'.item index) := by
  refine keeps_of ?_
  rintro schema ⟨rules, inScope, isItem⟩
  refine ⟨structuralRules rules, keeps _ inScope, ?_⟩
  rw [itemSchema?_structural, isItem, Option.map_some]

end Scope

/-- Defaults that schemas put in are put in by their structural schemas. -/
theorem Filled.structural
    {scope scope' : Scope} {a b : Tree}
    (h : Filled scope a b)
    (keeps : scope.Keeps scope') :
    Filled scope' a b := by
  induction h generalizing scope' with
  | null =>
      exact .null
  | boolean value =>
      exact .boolean value
  | number value =>
      exact .number value
  | string content =>
      exact .string content
  | array same _ ih =>
      exact .array same fun i a b ha hb => ih i a b ha hb (keeps.item i)
  | object origin kept isOrigin _ ih =>
      refine .object origin kept ?_ fun key b here => ih key b here (keeps.member key)
      intro key b here
      rcases isOrigin key b here with same | ⟨absent, rules, schema, inScope, mem, isDefault⟩
      · exact Or.inl same
      · obtain ⟨rules', inScope', mem'⟩ := keeps.property ⟨rules, inScope, mem⟩
        exact Or.inr ⟨absent, rules', _, inScope', mem',
          (default_structural schema).trans isDefault⟩

end Schema

namespace Validator

open Check Schema

variable {engine : Pattern.Engine}

/-- A document that a schema finds valid is found valid by the structural schema and is filled the
same. Whatever checking comes to, only defaults of the structural schema are filled in: what stands
inside `anyOf`, `oneOf` and `not` fills in nothing. -/
theorem checkAndFill_structural
    (schema : Tree)
    (options : ValidatorOptions)
    (data : Tree)
    (engine : Pattern.Engine) :
    (∀ report data', checkAndFill schema options data engine = (.ok report, data') →
        report.valid = true →
        ∃ report', checkAndFill (structural schema) options data engine = (.ok report', data') ∧
          report'.valid = true) ∧
      (schema.Ordered → data.Ordered →
        Filled (Scope.root (structural schema)) data (checkAndFill schema options data engine).2) ∧
      ∀ (walk : Walk) (rules : Rules) (path place : Pointer) (node : Tree),
        (combined walk rules path place .anyOf (passesAny path) node).data = node ∧
          (combined walk rules path place .oneOf (passesOne path) node).data = node ∧
          (combined walk rules path place .not (passesNone path) node).data = node := by
  refine ⟨?_, ?_, ?_⟩
  · intro report data' done valid
    refine valid_of_passes ?_
    exact walkPermits_structural options schema.height (structural schema).height 0 schema
      (Nat.le_refl _) (Nat.le_refl _) Pointer.root Pointer.root Pointer.root data data'
      (passes_of_valid done valid)
  · intro orderedSchema orderedData
    have filled : Filled (Scope.root schema) data (checkAndFill schema options data engine).2 :=
      (leaves_walk_filled _ _ schema _ _ orderedSchema (Scope.root schema) (Scope.closed_of _)
        (.given rfl) data orderedData).2
    exact filled.structural (Scope.keeps_root schema)
  · intro walk rules path place node
    exact ⟨looks_combined .anyOf looks_passesAny node, looks_combined .oneOf looks_passesOne node,
      looks_combined .not looks_passesNone node⟩

/-- The schema of an object with a default for `a`, where `anyOf` has one for `b`. -/
def branchDefault : Tree :=
  .object [("anyOf", .array [.object [("properties", .object [("b", .object
      [("default", .null)])])]]),
    ("properties", withDefault), ("required", .array [.string "a"])]

theorem ordered_branchDefault :
    branchDefault.Ordered := by
  have branch : (Tree.object [("b", .object [("default", .null)])]).Ordered :=
    .singleton (.singleton .null)
  have properties : withDefault.Ordered := .singleton (.singleton .null)
  refine .object (by unfold Members.Sorted; decide) ?_
  simp only [List.forall_mem_cons]
  exact ⟨.array (List.forall_mem_singleton.mpr (.singleton branch)), properties,
    .array (List.forall_mem_singleton.mpr (.string _)), by simp⟩

theorem checkAndFill_structural_branchDefault :
    structural branchDefault = .object [("properties", withDefault)] ∧
      checkAndFill branchDefault {} (.object []) = (.ok ⟨true, []⟩, .object [("a", .null)]) ∧
      (∃ report, checkAndFill (structural branchDefault) {} (.object []) =
        (.ok report, .object [("a", .null)]) ∧ report.valid = true) ∧
      Filled (Scope.root (structural branchDefault)) (.object []) (.object [("a", .null)]) := by
  have structurally := checkAndFill_structural branchDefault {} (.object []) Pattern.plain
  exact ⟨rfl, rfl, structurally.1 _ _ rfl rfl,
    structurally.2.1 ordered_branchDefault (.object .nil (by simp))⟩

end Validator
end JsonDoc
