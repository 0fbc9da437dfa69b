import JsonDoc.Proofs.Schema.Containers
import JsonDoc.Proofs.Schema.Positions
import JsonDoc.Proofs.Schema.Scalars
import JsonDoc.Schema.Validator

/-!
# The validator decides the meaning of schemas

Without defaults to fill in, a document that is checked stays as it is, and it is found valid
exactly if it satisfies the schema. Neither the depth limit nor the wish for all violations shows
in the verdict.
-/

namespace JsonDoc
namespace Schema

variable {engine : Pattern.Engine}

/-! ## Levels -/

section Levels

open Check Outcome

variable {rules : Rules} {path place : Pointer} {collectAll : Bool} {data : Tree}
variable {walk : Walk} {Q : Tree → Tree → Prop}

theorem decides_kindCheck
    (ordered : data.Ordered)
    (bare : Bare rules)
    (walks : ∀ schema, Child (.object rules) schema → WalkDecides walk Q schema) :
    (kindCheck engine collectAll walk rules path place data).Decides data
      (KindFits engine rules (fun schema _ => Q schema) data) := by
  cases data with
  | object members =>
      exact (decides_objectCheck ordered bare walks).map rfl
  | array items =>
      exact (decides_arrayCheck ordered walks).map rfl
  | string content =>
      exact decides_stringCheck content
  | number n =>
      exact decides_numberCheck n
  | boolean | null =>
      exact decides_pass _

/-- One level decides the conjunction of its keywords, if what is below decides `Q`. -/
theorem decides_level
    (ordered : data.Ordered)
    (bare : Bare rules)
    (walks : ∀ schema, Child (.object rules) schema → WalkDecides walk Q schema) :
    (level engine collectAll walk rules path place data).Decides data
      (GeneralFits rules (fun schema _ => Q schema) data ∧
        KindFits engine rules (fun schema _ => Q schema) data) :=
  decides_whenPassed (decides_generalChecks ordered walks)
    (decides_kindCheck ordered bare walks)

end Levels

/-! ## Defaults -/

/-- Defaults are missing if they are missing at every level. -/
theorem noDefaults_iff
    (root : Tree) :
    NoDefaults root ↔ Everywhere Bare root := by
  constructor
  · intro none rules position schemas found key schema
    exact none rules schemas key schema position found
  · intro bare rules schemas key schema position found
    exact bare rules position schemas found key schema

/-! ## Walks -/

/-- The walk of a schema, by induction on a bound for its height. -/
theorem decides_walk
    (engine : Pattern.Engine)
    (options : ValidatorOptions)
    (height : Nat) :
    ∀ (depth : Nat) (schema : Tree), schema.height ≤ height → Everywhere Bare schema →
      WalkDecides (walk engine options height depth) (Satisfies engine) schema := by
  induction height with
  | zero =>
      intro depth schema low
      cases schema <;> simp [Tree.height] at low
  | succ height ih =>
      intro depth schema low bare path place data ordered
      rw [walk]
      cases schema with
      | object rules =>
          rw [applyOnce]
          cases options.maxDepth.filter (· ≤ depth) with
          | some limit =>
              exact Check.decides_raise data _ _
          | none =>
              have walks (schema : Tree) (child : Child (.object rules) schema) :
                  WalkDecides (walk engine options height (depth + 1)) (Satisfies engine)
                    schema := by
                have lower := child.height_lt
                exact ih (depth + 1) schema (by omega) (bare.below child)
              exact (decides_level ordered bare.here walks).congr
                (satisfies_object engine rules data).symm
      | null | boolean | number | string | array =>
          exact Check.decides_raise data _ _

end Schema

namespace Validator

/-- A verdict comes with a report and with what is left of the document. -/
theorem checkAndFill_of_isValid
    {schema data : Tree} {options : ValidatorOptions} {engine : Pattern.Engine}
    {valid : Bool}
    (told : isValid schema options data engine = .ok valid) :
    ∃ report data', checkAndFill schema options data engine = (.ok report, data') ∧
      report.valid = valid := by
  unfold isValid check at told
  cases done : (checkAndFill schema options data engine).1 with
  | error e =>
      rw [done] at told
      cases told
  | ok report =>
      rw [done] at told
      cases told
      exact ⟨report, _, Prod.ext done rfl, rfl⟩

/-- A report tells whether the document satisfies the schema. -/
theorem checkAndFill_decides
    (schema : Tree)
    (options : ValidatorOptions)
    (data data' : Tree)
    (report : Report)
    (engine : Pattern.Engine)
    (ordered : data.Ordered)
    (noDefaults : Schema.NoDefaults schema)
    (done : checkAndFill schema options data engine = (.ok report, data')) :
    data' = data ∧ (report.valid = true ↔ Schema.Satisfies engine schema data) := by
  have decides := Schema.decides_walk engine options schema.height 0 schema Nat.le.refl
    ((Schema.noDefaults_iff schema).mp noDefaults) Pointer.root Pointer.root data ordered
  unfold checkAndFill outcome Validator.report at done
  simp only [Prod.mk.injEq] at done
  obtain ⟨told, rfl⟩ := done
  cases verdict : (Schema.walk engine options schema.height 0 schema Pointer.root Pointer.root
      data).verdict with
  | error e =>
      rw [verdict] at told
      cases told
  | ok passed =>
      rw [verdict] at told
      cases told
      exact decides passed verdict

/-- The schema of null and of objects with a code of up to three letters, and perhaps an even
count from two on. -/
def codeAndCount : Tree :=
  .object [
    ("anyOf", .array [.object [("type", .string "null")], .object [("type", .string "object")]]),
    ("properties", .object [
      ("code", .object [("maxLength", .ofInt 3), ("pattern", .string "^[a-c]+$")]),
      ("count", .object [("minimum", .ofInt 2), ("multipleOf", .ofInt 2)])]),
    ("required", .array [.string "code"])]

theorem noDefaults_codeAndCount :
    Schema.NoDefaults codeAndCount := by
  have leaf {rules : Rules} (flat : Schema.childSchemas rules = [])
      (none : rules.find? .properties = none) : Schema.Everywhere Schema.Bare (.object rules) :=
    Schema.everywhere_object (fun _ found => by simp [none] at found) (by simp [flat])
  refine (Schema.noDefaults_iff _).mpr (Schema.everywhere_object ?_ ?_)
  · rintro _ ⟨⟩ key schema mem
    simp only [List.mem_cons, Prod.mk.injEq, List.not_mem_nil, or_false] at mem
    rcases mem with ⟨_, rfl⟩ | ⟨_, rfl⟩ <;> rfl
  · exact List.forall_mem_cons.mpr ⟨leaf rfl rfl, List.forall_mem_cons.mpr ⟨leaf rfl rfl,
      List.forall_mem_cons.mpr ⟨leaf rfl rfl, List.forall_mem_singleton.mpr (leaf rfl rfl)⟩⟩⟩

/-- A code in which the pattern occurs, and one with another letter. -/
theorem satisfies_codeAndCount :
    Schema.Satisfies Pattern.plain codeAndCount
        (.object [("code", .string "abc"), ("count", .ofInt 4)]) ∧
      ¬ Schema.Satisfies Pattern.plain codeAndCount
        (.object [("code", .string "abd"), ("count", .ofInt 4)]) := by
  have ordered (code : String) :
      (Tree.object [("code", .string code), ("count", .ofInt 4)]).Ordered := by
    have sorted : "code" < "count" := by decide
    refine .object (List.pairwise_pair.mpr sorted) ?_
    simp only [List.forall_mem_cons]
    exact ⟨.string code, .number _, by simp⟩
  have valid : isValid codeAndCount {}
      (.object [("code", .string "abc"), ("count", .ofInt 4)]) = .ok true := by decide +kernel
  have invalid : isValid codeAndCount {}
      (.object [("code", .string "abd"), ("count", .ofInt 4)]) = .ok false := by decide +kernel
  obtain ⟨report, _, done, passed⟩ := checkAndFill_of_isValid valid
  obtain ⟨report', _, done', failed⟩ := checkAndFill_of_isValid invalid
  have decides := checkAndFill_decides _ _ _ _ report _ (ordered _) noDefaults_codeAndCount done
  have decides' := checkAndFill_decides _ _ _ _ report' _ (ordered _) noDefaults_codeAndCount done'
  exact ⟨decides.2.mp passed, fun satisfied => by simp [decides'.2.mpr satisfied] at failed⟩

end Validator
end JsonDoc
