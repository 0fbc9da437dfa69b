import JsonDoc.Proofs.Schema.BreakingOff
import JsonDoc.Proofs.Schema.Raising
import JsonDoc.Schema.Validator
import Mathlib.Data.List.MinMax
import Mathlib.Order.Nat

/-!
# The depth limit of validators

A limit on the depth only cuts a run short. `checkAndFill_maxDepth` says that a run with a limit
ends with the error for schemas that are nested too deep, or is the run without a limit, tree and
all. What counts is how deep schemas are nested, `nesting`: no data and no defaults make a run break
off whose limit the schema keeps to.
-/

namespace JsonDoc
namespace Schema

open Check Outcome

variable {engine : Pattern.Engine}

/-! ## Nesting -/

/-- The number of levels of a schema, one if there are no schemas below it. -/
def nesting : Tree → Nat
  | .object rules =>
    ((childSchemas rules).attach.map fun lower => nesting lower.1).foldr max 0 + 1
  | _ => 1
termination_by schema => schema.height
decreasing_by exact (child_of_mem lower.2).height_lt

theorem nesting_object
    (rules : Rules) :
    nesting (.object rules) = ((childSchemas rules).map nesting).foldr max 0 + 1 := by
  rw [nesting, List.attach_map_val (f := nesting)]

theorem nesting_pos
    (schema : Tree) :
    0 < nesting schema := by
  cases schema with
  | object rules =>
      rw [nesting_object]
      exact Nat.succ_pos _
  | null | boolean | number | string | array =>
      simp [nesting]

/-- A schema has one level more than the schemas below it have at most. -/
theorem nesting_le_iff
    {rules : Rules} {n : Nat} :
    nesting (.object rules) ≤ n + 1 ↔
      ∀ schema, Child (.object rules) schema → nesting schema ≤ n := by
  rw [nesting_object, Nat.add_le_add_iff_right]
  constructor
  · intro most schema child
    exact (List.le_max_of_le (List.mem_map_of_mem (mem_childSchemas child)) le_rfl).trans most
  · intro below
    refine List.max_le_of_forall_le _ _ (List.forall_mem_map.mpr fun schema mem => ?_)
    exact below schema (child_of_mem mem)

theorem Child.nesting_lt
    {rules : Rules} {schema : Tree}
    (child : Child (.object rules) schema) :
    nesting schema < nesting (.object rules) := by
  have most : nesting (.object rules) ≤ nesting (.object rules) - 1 + 1 := by omega
  have := nesting_le_iff.mp most schema child
  have := nesting_pos (.object rules)
  omega

/-! ## Walks -/

/-- The error of a run that has come `depth` levels deep and finds more levels than the limit
allows. -/
def Exceeds (limit depth : Nat) (schema : Tree) (e : SchemaError) : Prop :=
  (∃ path, e = .tooDeep limit path) ∧ limit < depth + nesting schema

/-- With a limit a walk breaks off at a level that is too deep, and nowhere else. -/
theorem walk_breaksOff
    (limit : Nat)
    (collectAll : Bool)
    (height : Nat) :
    ∀ depth schema path place, Related (BreaksOff (Exceeds limit depth schema))
      (walk engine ⟨some limit, collectAll⟩ height depth schema path place)
      (walk engine ⟨none, collectAll⟩ height depth schema path place) := by
  induction height with
  | zero =>
      exact fun _ _ _ _ _ => Or.inl rfl
  | succ height ih =>
      intro depth schema path place
      rw [walk, walk]
      unfold applyOnce
      cases schema with
      | object rules =>
          by_cases reached : limit ≤ depth
          · have := nesting_pos (.object rules)
            simp only [Option.filter, reached, decide_true, if_true]
            exact fun _ => Or.inr ⟨_, rfl, ⟨⟨path, rfl⟩, by omega⟩, List.nil_prefix⟩
          · simp only [Option.filter, reached, decide_false, Bool.false_eq_true, if_false]
            rw [level_eq, level_eq]
            have below (schema : Tree) (path place' : Pointer)
                (lower : Below rules place place' schema) :
                Related (BreaksOff (Exceeds limit depth (.object rules)))
                  (walk engine ⟨some limit, collectAll⟩ height (depth + 1) schema path place')
                  (walk engine ⟨none, collectAll⟩ height (depth + 1) schema path place') := by
              have := lower.child.nesting_lt
              refine fun node => (ih (depth + 1) schema path place' node).mono ?_
              exact fun e exceeds => ⟨exceeds.1, by have := exceeds.2; omega⟩
            exact (respects_breaksOff collectAll _).level (fun _ _ => trivial) below below
      | null | boolean | number | string | array =>
          exact fun _ => Or.inl rfl

/-- Without a limit nothing is nested too deep. -/
theorem raises_walk_unlimited
    (collectAll : Bool)
    (height : Nat) :
    ∀ depth schema path place, Raises (fun e => ∀ limit path, e ≠ .tooDeep limit path)
      (walk engine ⟨none, collectAll⟩ height depth schema path place) := by
  induction height with
  | zero =>
      exact fun _ _ _ _ => raises_pass
  | succ height ih =>
      intro depth schema path place
      rw [walk]
      unfold applyOnce
      cases schema with
      | object rules =>
          refine raises_level ?_ fun schema path place' _ => ih (depth + 1) schema path place'
          rintro e ⟨keyword, _, rfl | ⟨flaw, rfl⟩⟩ limit path ⟨⟩
      | null | boolean | number | string | array =>
          refine raises_raise fun limit path same => ?_
          cases same

end Schema

namespace Validator

open Schema Outcome

variable {engine : Pattern.Engine}

theorem report_error_iff
    {α : Type} {outcome : Outcome α} {e : SchemaError} :
    report outcome = .error e ↔ outcome.verdict = .error e := by
  unfold report
  cases outcome.verdict <;> simp [Except.map]

/-- With a limit on the depth, a run ends with the error for that limit, or is the run without a
limit and leaves the same tree. It never ends so if the limit is no less than the number of levels
of the schema, whatever the data is and whatever is filled in. -/
theorem checkAndFill_maxDepth
    (schema data : Tree)
    (limit : Nat)
    (collectAll : Bool)
    (engine : Pattern.Engine) :
    ((∃ path, (checkAndFill schema ⟨some limit, collectAll⟩ data engine).1 =
          .error (.tooDeep limit path)) ∨
        checkAndFill schema ⟨some limit, collectAll⟩ data engine =
          checkAndFill schema ⟨none, collectAll⟩ data engine) ∧
      (nesting schema ≤ limit → ∀ limit' path,
        (checkAndFill schema ⟨some limit, collectAll⟩ data engine).1 ≠
          .error (.tooDeep limit' path)) := by
  have cut : BreaksOff (Exceeds limit 0 schema)
      (outcome schema ⟨some limit, collectAll⟩ data engine)
      (outcome schema ⟨none, collectAll⟩ data engine) :=
    walk_breaksOff limit collectAll schema.height 0 schema .root .root data
  unfold checkAndFill
  rcases cut with same | ⟨_, failed, ⟨⟨path, rfl⟩, exceeds⟩, _⟩
  · rw [same]
    refine ⟨Or.inr rfl, fun _ limit' path failed => ?_⟩
    have raised := report_error_iff.mp failed
    exact raises_walk_unlimited collectAll schema.height 0 schema .root .root data _ raised _ _ rfl
  · refine ⟨Or.inl ⟨path, report_error_iff.mpr failed⟩, fun keeps => ?_⟩
    omega

/-- A schema of three levels, each with a default for what it checks. -/
def nestedDefaults : Tree :=
  .object [("properties", .object [("a", .object
    [("default", .object []), ("properties", .object [("b", .object [("default", .null)])])])])]

/-- Defaults are filled in as deep as the schema goes, and no deeper limit is needed. -/
theorem checkAndFill_maxDepth_nestedDefaults :
    nesting nestedDefaults ≤ 3 ∧
      (checkAndFill nestedDefaults ⟨some 2, true⟩ (.object [])).1 =
        .error (.tooDeep 2 ⟨["a", "b"]⟩) ∧
      (checkAndFill nestedDefaults ⟨some 3, true⟩ (.object [])).2 =
        .object [("a", .object [("b", .null)])] ∧
      ∀ limit path, (checkAndFill nestedDefaults ⟨some 3, true⟩ (.object [])).1 ≠
        .error (.tooDeep limit path) := by
  have keeps : nesting nestedDefaults ≤ 3 := by
    have level {rules : Rules} {n : Nat}
        (below : ∀ schema ∈ childSchemas rules, nesting schema ≤ n) :
        nesting (.object rules) ≤ n + 1 :=
      nesting_le_iff.mpr fun schema child => below schema (mem_childSchemas child)
    exact level (List.forall_mem_singleton.mpr
      (level (List.forall_mem_singleton.mpr (level nofun))))
  exact ⟨keeps, rfl, rfl, (checkAndFill_maxDepth nestedDefaults (.object []) 3 true _).2 keeps⟩

end Validator
end JsonDoc
