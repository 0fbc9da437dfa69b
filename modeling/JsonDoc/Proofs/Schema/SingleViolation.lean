import JsonDoc.Proofs.Schema.Refilling
import JsonDoc.Proofs.Schema.RelatedLevel

/-!
# What a run tells that stops early

Without `collectAll` the walk stops at the first node that breaks a keyword, and tells of nothing
else. Only `allOf` adds to it: where a branch fails, one more violation follows that of the branch,
so there is one for each `allOf` on the way from the node back to the root. `Told` says which lists
come about like this, and `check_firstFailure` that there are no others.
-/

namespace JsonDoc

namespace Outcome

variable {α β : Type} {P : List Violation → Prop} {outcome : Outcome α}

/-- An outcome that passes tells nothing, and one that fails tells something of a sort. -/
structure Tells (P : List Violation → Prop) (outcome : Outcome α) : Prop where
  passed : outcome.verdict = .ok true → outcome.violations = []
  failed : outcome.verdict = .ok false → P outcome.violations

theorem Tells.mono
    {Q : List Violation → Prop}
    (h : outcome.Tells P)
    (weaker : ∀ violations, P violations → Q violations) :
    outcome.Tells Q :=
  ⟨h.passed, fun failed => weaker _ (h.failed failed)⟩

theorem Tells.map
    (h : outcome.Tells P)
    (f : α → β) :
    (outcome.map f).Tells P :=
  ⟨h.passed, h.failed⟩

/-- Where defaults were filled in does not matter. -/
theorem Tells.filled
    (h : outcome.Tells P)
    (places : List Pointer) :
    { outcome with filled := places }.Tells P :=
  ⟨h.passed, h.failed⟩

/-- What comes after a part that passed is all that is told. -/
theorem Tells.join
    {next : Outcome β}
    (h : outcome.Tells P)
    (passed : outcome.verdict = .ok true)
    (k : next.Tells P) :
    (outcome.join next).Tells P := by
  have verdict : (outcome.join next).verdict = next.verdict := by
    cases last : next.verdict <;> simp [Outcome.join, passed, last, Except.map]
  have violations : (outcome.join next).violations = next.violations := by
    simp [Outcome.join, h.passed passed]
  constructor
  · rw [verdict, violations]
    exact k.passed
  · rw [verdict, violations]
    exact k.failed

/-- A run that stops early goes on only after a part that passed. -/
theorem Tells.andThen
    {keep : α → β} {next : α → Outcome β}
    (h : outcome.Tells P)
    (k : ∀ data, (next data).Tells P) :
    (outcome.andThen false keep next).Tells P := by
  unfold Outcome.andThen
  split
  · rename_i goes
    have passed : outcome.verdict = .ok true := by
      cases verdict : outcome.verdict with
      | error e =>
          simp [goesOn, verdict] at goes
      | ok passed =>
          simpa [goesOn, verdict] using goes
    exact h.join passed (k _)
  · exact h.map keep

end Outcome

namespace Check

variable {α β : Type} {P : List Violation → Prop} {path : Pointer} {check first second : Check α}
variable {checks : List (Check α)}

/-- A check that stops early tells something of a sort if it fails. -/
def Tells
    (P : List Violation → Prop)
    (check : Check α) : Prop :=
  ∀ data, (check data).Tells P

theorem tells_pass :
    Tells P (pass : Check α) := fun _ => ⟨fun _ => rfl, nofun⟩

theorem tells_raise
    (e : SchemaError) :
    Tells P (raise e : Check α) := fun _ => ⟨nofun, nofun⟩

theorem tells_violate
    {breach : Breach}
    (h : P [⟨path, breach⟩]) :
    Tells P (violate path breach : Check α) :=
  fun _ => ⟨nofun, fun _ => h⟩

theorem tells_demand
    (condition : α → Bool)
    {breach : α → Breach}
    (h : ∀ data, P [⟨path, breach data⟩]) :
    Tells P fun data => demand (condition data) path (breach data) data := by
  intro data
  cases holds : condition data with
  | true =>
      simpa [demand, holds] using tells_pass data
  | false =>
      simpa [demand, holds] using tells_violate (h data) data

theorem tells_ofKeyword
    {value : Except SchemaError (Option β)} {check : β → Check α}
    (h : ∀ b, value = .ok (some b) → Tells P (check b)) :
    Tells P (ofKeyword value check) := by
  unfold ofKeyword
  split
  · exact tells_raise _
  · exact tells_pass
  · exact h _ rfl

theorem tells_all
    (h : ∀ check ∈ checks, Tells P check) :
    Tells P (all false checks) := by
  induction checks with
  | nil =>
      exact tells_pass
  | cons check checks ih =>
      obtain ⟨first, others⟩ := List.forall_mem_cons.mp h
      intro data
      rw [all_eq]
      exact (first data).andThen (ih others)

theorem tells_whenPassed
    (h : Tells P first)
    (k : Tells P second) :
    Tells P (whenPassed first second) := by
  intro data
  rw [whenPassed_eq]
  exact (h data).andThen k

theorem tells_eachItem
    {check : Nat → Check Tree}
    (h : ∀ index, Tells P (check index)) :
    ∀ index : Nat, Tells P (eachItem false check index) := by
  intro index items
  induction items generalizing index with
  | nil =>
      exact tells_pass _
  | cons item items ih =>
      rw [eachItem_eq]
      exact (h index item).andThen fun first => (ih (index + 1)).map _

theorem tells_concluded
    {node : α} {breach : β → Option Breach}
    (h : ∀ found broken, breach found = some broken → P [⟨path, broken⟩])
    (search : Except SchemaError β × List Pointer) :
    (concluded path node breach search).Tells P := by
  rcases concluded_cases path node breach search with
    ⟨e, _, eq⟩ | ⟨_, _, _, eq⟩ | ⟨found, wrong, _, broken, eq⟩
  · rw [eq]
    exact (tells_raise e node).filled search.2
  · rw [eq]
    exact (tells_pass node).filled search.2
  · rw [eq]
    exact (tells_violate (h found wrong broken) node).filled search.2

end Check

namespace Schema

open Check

variable {engine : Pattern.Engine}

/-- What a schema that stops early may tell of a node at a path. -/
inductive Told : Tree → Pointer → List Violation → Prop
  /-- The node breaks a keyword of the schema. -/
  | here {rules : Rules} {path : Pointer} {breach : Breach} :
      (rules.find? breach.keyword).isSome → breach ≠ .notAll →
      Told (.object rules) path [⟨path, breach⟩]
  /-- A member or an item is told of. -/
  | part {rules : Rules} {path : Pointer} {token : String} {schema : Tree}
      {violations : List Violation} :
      schema ∈ partSchemas rules → Told schema (path.child token) violations →
      Told (.object rules) path violations
  /-- A branch of `allOf` tells of the node, and the keyword does after it. -/
  | branch {rules : Rules} {path : Pointer} {schema : Tree} {violations : List Violation} :
      schema ∈ allOfSchemas rules → Told schema path violations →
      Told (.object rules) path (violations ++ [⟨path, .notAll⟩])

/-- A walk tells of a node what its schema may tell. -/
def WalkTells (walk : Walk) : Prop :=
  ∀ schema path place, Tells (Told schema path) (walk schema path place)

section Keywords

variable {walk : Walk} {rules : Rules} {path place : Pointer}

theorem told_here
    {breach : Breach} {value : Tree}
    (found : rules.find? breach.keyword = some value)
    (other : breach ≠ .notAll) :
    Told (.object rules) path [⟨path, breach⟩] :=
  .here (by rw [found]; rfl) other

/-! ## Keywords for all kinds -/

theorem tells_enumCheck :
    Tells (Told (.object rules) path) (enumCheck rules path place) := by
  unfold enumCheck
  split
  · exact tells_pass
  · rename_i value found
    cases value with
    | array options =>
        exact tells_demand _ fun node => told_here found nofun
    | null | boolean | number | string | object =>
        exact tells_raise _

theorem tells_typeCheck :
    Tells (Told (.object rules) path) (typeCheck rules path place) := by
  unfold typeCheck
  split
  · exact tells_pass
  · rename_i value found
    unfold typed
    cases Rules.types place value with
    | error e =>
        exact tells_raise e
    | ok names =>
        exact tells_demand _ fun node => told_here found nofun

theorem tells_combined
    {combine : List (Check Tree) → Check Tree} {keyword : Keyword}
    (h : ∀ value, rules.find? keyword = some value →
      ∀ checks, Tells (Told (.object rules) path) (combine checks)) :
    Tells (Told (.object rules) path) (combined walk rules path place keyword combine) := by
  unfold combined
  split
  · exact tells_pass
  · rename_i value found
    split
    · exact tells_raise _
    · exact h value found _

theorem tells_anyOf :
    Tells (Told (.object rules) path) (combined walk rules path place .anyOf (passesAny path)) := by
  refine tells_combined fun value found checks node => ?_
  rw [passesAny_eq]
  refine tells_concluded (fun index broken eq => ?_) _
  cases index with
  | none =>
      cases eq
      exact told_here found nofun
  | some index =>
      cases eq

theorem tells_oneOf :
    Tells (Told (.object rules) path) (combined walk rules path place .oneOf (passesOne path)) := by
  refine tells_combined fun value found checks node => ?_
  rw [passesOne_eq]
  refine tells_concluded (fun count broken eq => ?_) _
  split at eq
  · cases eq
  · split at eq
    · cases eq
      exact told_here found nofun
    · cases eq
      exact told_here found nofun

theorem tells_not :
    Tells (Told (.object rules) path) (combined walk rules path place .not (passesNone path)) := by
  refine tells_combined fun value found checks node => ?_
  rw [passesNone_eq]
  refine tells_concluded (fun index broken eq => ?_) _
  obtain ⟨_, _, rfl⟩ := Option.map_eq_some_iff.mp eq
  exact told_here found nofun

variable (tells : WalkTells walk)

include tells

/-- The first branch that fails tells of the node, and the keyword adds one violation. -/
theorem tells_allOf :
    Tells (Told (.object rules) path)
      (combined walk rules path place .allOf (passesAll false path)) := by
  rcases allOf_cases false walk rules path place with ⟨checks, walks, eq⟩ | ⟨e, eq⟩
  · rw [eq]
    have branch : Tells (fun violations => ∃ schema ∈ allOfSchemas rules,
        Told schema path violations) (Check.all false checks) := by
      refine tells_all (forall_of_walk walks fun schema mem place' node => ?_)
      exact (tells schema path place' node).mono fun _ told => ⟨schema, mem, told⟩
    intro node
    unfold passesAll
    simp only
    split
    · rename_i failed
      obtain ⟨schema, mem, told⟩ := (branch node).failed failed
      exact ⟨fun passed => by simp [failed] at passed, fun _ => .branch mem told⟩
    · rename_i notFailed
      exact ⟨(branch node).passed, fun failed => absurd failed notFailed⟩
  · rw [eq]
    exact tells_raise e

theorem tells_generalChecks :
    Tells (Told (.object rules) path)
      (Check.all false (generalChecks false walk rules path place)) := by
  rw [generalChecks_eq]
  refine tells_all ?_
  simp only [List.forall_mem_cons]
  exact ⟨tells_enumCheck, tells_typeCheck, tells_allOf tells, tells_anyOf, tells_oneOf, tells_not,
    by simp⟩

/-! ## Objects -/

/-- What is told of a member or an item is told of the node. -/
theorem tells_part
    {schema : Tree} {token : String}
    (mem : schema ∈ partSchemas rules) :
    Tells (Told (.object rules) path) (walk schema (path.child token) place) :=
  fun node => (tells schema (path.child token) place node).mono fun _ => .part mem

theorem tells_property
    {key : String} {schema : Tree}
    (mem : schema ∈ partSchemas rules) :
    Tells (Told (.object rules) path) (property walk key schema path place) := by
  intro members
  unfold property
  simp only
  split
  · exact tells_pass _
  · exact ((tells_part tells mem _).map _).filled _

omit tells in
theorem tells_required :
    Tells (Told (.object rules) path) (required false rules path place) := by
  unfold required
  split
  · exact tells_pass
  · rename_i names found
    refine tells_all (List.forall_mem_map.mpr fun value _ => ?_)
    cases value with
    | string name =>
        exact tells_demand _ fun members => told_here found nofun
    | null | boolean | number | array | object =>
        exact tells_raise _
  · exact tells_raise _

omit tells in
/-- A keyword with a count. -/
theorem tells_count
    {α : Type} {keyword : Keyword} {condition : Nat → α → Bool}
    {breach : Nat → α → Breach}
    (broken : ∀ n data, (breach n data).keyword = keyword ∧ breach n data ≠ .notAll) :
    Tells (Told (.object rules) path) (ofKeyword (rules.count keyword place) fun n data =>
      demand (condition n data) path (breach n data) data) := by
  refine tells_ofKeyword fun n read => tells_demand (condition n) fun data => ?_
  obtain ⟨value, found⟩ := find?_of_count read
  obtain ⟨rfl, other⟩ := broken n data
  exact told_here found other

theorem tells_objectCheck :
    Tells (Told (.object rules) path) (objectCheck false walk rules path place) := by
  unfold objectCheck
  split
  · exact tells_raise _
  · refine tells_all ?_
    simp only [List.forall_mem_cons]
    refine ⟨?_, tells_required, tells_count fun _ _ => ⟨rfl, nofun⟩,
      tells_count fun _ _ => ⟨rfl, nofun⟩, by simp⟩
    rcases properties_cases false walk rules path place with eq | ⟨e, eq⟩
    · rw [eq]
      exact tells_all (List.forall_mem_map.mpr fun entry mem =>
        tells_property tells (part_of_property mem))
    · rw [eq]
      exact tells_raise e

/-! ## Arrays -/

theorem tells_extraItems
    {schemas : List Tree}
    (found : rules.find? .items = some (.array schemas)) :
    Tells (Told (.object rules) path)
      (extraItems false walk rules schemas.length path place) := by
  intro items
  unfold extraItems
  split
  · exact tells_pass items
  · split
    · exact tells_pass items
    · exact tells_pass items
    · rename_i additional
      have told : Told (.object rules) path [⟨path, .extraItems items.length schemas.length⟩] :=
        told_here additional (by simp)
      exact tells_violate told items
    · rename_i schema additional
      have mem : .object schema ∈ itemSchemas rules := by
        simp [itemSchemas, found, additional]
      exact (tells_eachItem (fun index => tells_part tells (part_of_item mem)) _ _).map _
    · rename_i additional
      have told : Told (.object rules) path [⟨path, .ungovernedItems⟩] :=
        told_here additional (by simp)
      exact tells_violate told items

theorem tells_itemsCheck :
    Tells (Told (.object rules) path) (itemsCheck false walk rules path place) := by
  unfold itemsCheck
  split
  · exact tells_pass
  · rename_i schema found
    have mem : .object schema ∈ itemSchemas rules := by simp [itemSchemas, found]
    exact tells_eachItem (fun index => tells_part tells (part_of_item mem)) 0
  · rename_i schemas found
    refine tells_all ?_
    simp only [List.forall_mem_cons]
    refine ⟨fun items => ?_, tells_extraItems tells found, by simp⟩
    refine (tells_eachItem (fun index => ?_) 0 _).map _
    split
    · exact tells_pass
    · rename_i schema here
      have isItem : itemSchema? rules index = some schema := by
        simp only [itemSchema?, found, here]
      exact tells_part tells (part_of_item (mem_itemSchemas isItem))
  · exact tells_raise _

omit tells in
theorem tells_unique :
    Tells (Told (.object rules) path) (unique rules path place) := by
  intro items
  unfold unique
  split
  · exact tells_pass items
  · exact tells_pass items
  · rename_i found
    split
    · exact tells_pass items
    · rename_i first second _
      have told : Told (.object rules) path [⟨path, .equalItems first second⟩] :=
        told_here found nofun
      exact tells_violate told items
  · exact tells_raise _ items

theorem tells_arrayCheck :
    Tells (Told (.object rules) path) (arrayCheck false walk rules path place) := by
  unfold arrayCheck
  refine tells_all ?_
  simp only [List.forall_mem_cons]
  exact ⟨tells_itemsCheck tells, tells_count fun _ _ => ⟨rfl, nofun⟩,
    tells_count fun _ _ => ⟨rfl, nofun⟩, tells_unique, by simp⟩

/-! ## Scalars -/

omit tells

theorem tells_stringCheck
    (content : String) :
    Tells (Told (.object rules) path) (stringCheck engine false rules content path place) := by
  unfold stringCheck
  refine tells_all ?_
  simp only [List.forall_mem_cons]
  refine ⟨tells_count fun _ _ => ⟨rfl, nofun⟩, tells_count fun _ _ => ⟨rfl, nofun⟩, ?_, by simp⟩
  unfold matching
  split
  · exact tells_pass
  · rename_i found
    simp only
    split
    · exact tells_raise _
    · exact tells_demand _ fun node => told_here found nofun
  · exact tells_raise _

theorem tells_numberCheck
    (n : Binary64) :
    Tells (Told (.object rules) path) (numberCheck false rules n path place) := by
  unfold numberCheck
  refine tells_all ?_
  simp only [List.forall_mem_cons]
  refine ⟨tells_ofKeyword fun divisor read => ?_, tells_ofKeyword fun (_, _) read => ?_,
    tells_ofKeyword fun (_, _) read => ?_, by simp⟩
  · obtain ⟨value, found⟩ := find?_of_number read
    split
    · exact tells_raise _
    · exact tells_demand _ fun node => told_here found nofun
  · obtain ⟨value, found⟩ := find?_of_bound read
    exact tells_demand _ fun node => told_here found nofun
  · obtain ⟨value, found⟩ := find?_of_bound read
    exact tells_demand _ fun node => told_here found nofun

/-! ## Levels -/

include tells

theorem tells_kindCheck :
    Tells (Told (.object rules) path) (kindCheck engine false walk rules path place) := by
  intro node
  cases node with
  | object members =>
      exact (tells_objectCheck tells members).map _
  | array items =>
      exact (tells_arrayCheck tells items).map _
  | string content =>
      exact tells_stringCheck content _
  | number n =>
      exact tells_numberCheck n _
  | null | boolean =>
      exact tells_pass _

theorem tells_level :
    Tells (Told (.object rules) path) (level engine false walk rules path place) :=
  tells_whenPassed (tells_generalChecks tells) (tells_kindCheck tells)

end Keywords

/-- Walking tells of a node what the schema may tell. -/
theorem tells_walk
    (maxDepth : Option Nat)
    (height depth : Nat) :
    WalkTells (walk engine ⟨maxDepth, false⟩ height depth) :=
  walk_induction_at (fun schema path _ check => Tells (Told schema path) check)
    (fun _ _ _ => tells_pass) (fun _ _ _ _ => tells_raise _) (fun _ _ _ _ _ => tells_raise _)
    (fun _ _ _ _ _ below => tells_level below) height depth

/-! ## What is told -/

section Told

variable {rules : Rules} {schema : Tree} {path : Pointer} {violations : List Violation}

/-- The violation of an `allOf` at a node. -/
def allOfNote (node : Pointer) : Violation := ⟨node, .notAll⟩

/-- First comes a violation of some other keyword. What follows are violations of `allOf`, at nodes
on the way from the root to that one. -/
theorem Told.split
    (h : Told schema path violations) :
    ∃ (found : Violation) (nodes : List Pointer), violations = found :: nodes.map allOfNote ∧
      found.breach ≠ .notAll ∧ path.tokens <+: found.place.tokens ∧
      ∀ node ∈ nodes, node.tokens <+: found.place.tokens := by
  induction h with
  | here _ other =>
      exact ⟨_, [], rfl, other, List.prefix_rfl, by simp⟩
  | part _ _ ih =>
      obtain ⟨found, nodes, eq, other, below, on⟩ := ih
      exact ⟨found, nodes, eq, other, (List.prefix_append _ _).trans below, on⟩
  | @branch _ path _ _ _ _ ih =>
      obtain ⟨found, nodes, rfl, other, below, on⟩ := ih
      refine ⟨found, nodes ++ [path], by simp [allOfNote], other, below, ?_⟩
      intro node mem
      rcases List.mem_append.mp mem with mem | mem
      · exact on node mem
      · rw [List.mem_singleton.mp mem]
        exact below

/-- Without `allOf` there is one violation. -/
theorem Told.single
    (h : Told schema path violations)
    (without : Throughout (fun rules => rules.find? .allOf = none) schema) :
    ∃ found, violations = [found] := by
  induction h with
  | here _ _ =>
      exact ⟨_, rfl⟩
  | part mem _ ih =>
      exact ih (without.below (applied_part mem))
  | branch mem _ _ =>
      rw [allOfSchemas, without.here] at mem
      cases mem

end Told

end Schema

namespace Validator

open Schema

variable {engine : Pattern.Engine}

/-- What a run tells that stops early. The first violation is of a keyword other than `allOf`; after
it comes one for each `allOf` on the way, and no other. So it is the only one if the schema has no
`allOf` that it applies. -/
theorem check_firstFailure
    (schema data : Tree)
    (maxDepth : Option Nat)
    (report : Report)
    (engine : Pattern.Engine)
    (done : check schema ⟨maxDepth, false⟩ data engine = .ok report)
    (invalid : report.valid = false) :
    Told schema .root report.violations ∧
      (∃ (found : Violation) (nodes : List Pointer),
        report.violations = found :: nodes.map allOfNote ∧ found.breach ≠ .notAll ∧
        ∀ node ∈ nodes, node.tokens <+: found.place.tokens) ∧
      (Throughout (fun rules => rules.find? .allOf = none) schema →
        ∃ found, report.violations = [found]) := by
  obtain ⟨verdict, violations⟩ := outcome_of_report done
  have told := (tells_walk maxDepth schema.height 0 schema .root .root data).failed
    (verdict.trans (congrArg Except.ok invalid))
  rw [← violations]
  obtain ⟨found, nodes, eq, other, _, on⟩ := told.split
  exact ⟨told, ⟨found, nodes, eq, other, on⟩, told.single⟩

/-- A member must be a string by a branch of an `allOf`, which stands in a branch of another one. -/
def nestedBranches : Tree :=
  .object [("allOf", .array [.object [("properties", .object
    [("a", .object [("allOf", .array [.object [("type", .string "string")]])])])]])]

/-- The type of the member is wrong, and two branches are left on the way back. -/
theorem check_firstFailure_nested :
    ∃ report, check nestedBranches ⟨none, false⟩ (.object [("a", .null)]) = .ok report ∧
      report.violations = [⟨⟨["a"]⟩, .wrongType ["string"] "null"⟩, allOfNote ⟨["a"]⟩,
        allOfNote .root] ∧
      Told nestedBranches .root report.violations := by
  have done : check nestedBranches ⟨none, false⟩ (.object [("a", .null)]) =
      .ok ⟨false, [⟨⟨["a"]⟩, .wrongType ["string"] "null"⟩, allOfNote ⟨["a"]⟩,
        allOfNote .root]⟩ := rfl
  exact ⟨_, done, rfl, (check_firstFailure _ _ _ _ _ done rfl).1⟩

/-- One wrong type, found by the only branch of an `allOf`, makes two violations. -/
theorem check_single_branch :
    check (.object [("allOf", .array [.object [("type", .string "string")]])]) ⟨none, false⟩ .null =
      .ok ⟨false, [⟨.root, .wrongType ["string"] "null"⟩, ⟨.root, .notAll⟩]⟩ := rfl

end Validator
end JsonDoc
