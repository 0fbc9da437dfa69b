import JsonDoc.Proofs.Schema.RelatedLevel
import JsonDoc.Proofs.Schema.Shortening
import JsonDoc.Schema.Validator

/-!
# Failing fast

A validator that stops at the first violation agrees with one that collects all of them: wherever
collecting comes to a report, so does stopping early, with the same verdict, the same first
violation and some of the others, and a document that is valid is filled in the same way.
-/

namespace JsonDoc
namespace Schema

open Check Outcome

variable {engine : Pattern.Engine}

/-- One level agrees if the schemas below it do. -/
theorem agrees_level
    {early full : Walk}
    (rules : Rules)
    (path place : Pointer)
    (h : ∀ schema path place, Related Agrees (early schema path place) (full schema path place)) :
    Related Agrees (level engine false early rules path place)
      (level engine true full rules path place) := by
  rw [level_eq, level_eq]
  exact respects_agrees.level (fun _ _ => trivial) (fun schema path place _ => h schema path place)
    fun schema path place _ => h schema path place

/-- The walk of a schema, by induction on the bound for its height. -/
theorem walksAgree_walk
    (maxDepth : Option Nat)
    (height : Nat) :
    ∀ depth schema path place, Related Agrees
      (walk engine ⟨maxDepth, false⟩ height depth schema path place)
      (walk engine ⟨maxDepth, true⟩ height depth schema path place) := by
  induction height with
  | zero =>
      exact fun _ _ _ _ => respects_agrees.related_pass
  | succ height ih =>
      intro depth schema path place
      rw [walk, walk]
      unfold applyOnce
      cases schema with
      | object rules =>
          simp only
          cases maxDepth.filter (· ≤ depth) with
          | some limit =>
              exact respects_agrees.related_raise trivial
          | none =>
              exact agrees_level rules path place (ih (depth + 1))
      | null | boolean | number | string | array =>
          exact respects_agrees.related_raise trivial

end Schema

namespace Validator

/-- Stopping at the first violation gives the verdict and the first violation of collecting them
all, some of the violations, and, if the document is valid, the same filled document. -/
theorem checkAndFill_failFast
    (schema : Tree)
    (maxDepth : Option Nat)
    (data filled : Tree)
    (report : Report)
    (engine : Pattern.Engine)
    (done : checkAndFill schema ⟨maxDepth, true⟩ data engine = (.ok report, filled)) :
    ∃ short filled', checkAndFill schema ⟨maxDepth, false⟩ data engine = (.ok short, filled') ∧
      short.valid = report.valid ∧ short.first? = report.first? ∧
      short.violations.Sublist report.violations ∧ (report.valid = true → filled' = filled) := by
  unfold checkAndFill Validator.report at done ⊢
  simp only [Prod.mk.injEq] at done ⊢
  obtain ⟨told, rfl⟩ := done
  cases verdict : (outcome schema ⟨maxDepth, true⟩ data engine).verdict with
  | error e =>
      rw [verdict] at told
      cases told
  | ok passed =>
      rw [verdict] at told
      cases told
      have short := Schema.walksAgree_walk maxDepth schema.height 0 schema Pointer.root
        Pointer.root data passed verdict
      refine ⟨⟨passed, (outcome schema ⟨maxDepth, false⟩ data engine).violations⟩, _,
        ⟨?_, rfl⟩, rfl, short.first, short.sublist, short.data⟩
      rw [outcome, short.verdict]
      rfl

/-- After the first violation only the long run fills in a default and finds a second one. -/
theorem checkAndFill_failFast_before_default :
    ∃ report filled, checkAndFill (.object [("properties", .object
          [("a", .object [("type", .string "string")]),
           ("b", .object [("default", .null), ("type", .string "string")])])])
        ⟨none, true⟩ (.object [("a", .null)]) = (.ok report, filled) ∧
      report.violations.length = 2 ∧
      ∃ short filled', checkAndFill (.object [("properties", .object
          [("a", .object [("type", .string "string")]),
           ("b", .object [("default", .null), ("type", .string "string")])])])
        ⟨none, false⟩ (.object [("a", .null)]) = (.ok short, filled') ∧
      short.valid = report.valid ∧ short.first? = report.first? ∧
      short.violations.Sublist report.violations ∧ (report.valid = true → filled' = filled) :=
  ⟨_, _, rfl, rfl, checkAndFill_failFast _ _ _ _ _ _ rfl⟩

end Validator
end JsonDoc
