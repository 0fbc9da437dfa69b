import JsonDoc.Proofs.Schema.Decision
import JsonDoc.Proofs.Schema.Passing
import JsonDoc.Schema.Walk

/-!
# Searches among branches

The branches of `anyOf`, `oneOf` and `not` are probed: one searches for the first that passes, or
counts those that pass. What follows from such a search is `Check.concluded`, and the three keywords
differ only in what is wrong with what was found. So what is told of them is told of `concluded`
once.
-/

namespace JsonDoc

namespace Check

open Outcome

variable {α β : Type}

/-- What a search among branches comes to: `breach` says what is wrong with what was found. -/
def concluded
    (path : Pointer)
    (node : α)
    (breach : β → Option Breach)
    (search : Except SchemaError β × List Pointer) : Outcome α :=
  { (match search.1 with
      | .error e => raise e node
      | .ok found =>
        match breach found with
        | none => pass node
        | some breach => violate path breach node) with filled := search.2 }

section Concluded

variable {path : Pointer} {node : α} {breach : β → Option Breach}

/-- What is concluded: an error of the search, or that nothing is wrong, or one violation. -/
theorem concluded_cases
    (path : Pointer)
    (node : α)
    (breach : β → Option Breach)
    (search : Except SchemaError β × List Pointer) :
    (∃ e, search.1 = .error e ∧
        concluded path node breach search = { raise e node with filled := search.2 }) ∨
      (∃ found, search.1 = .ok found ∧ breach found = none ∧
        concluded path node breach search = { pass node with filled := search.2 }) ∨
      ∃ found wrong, search.1 = .ok found ∧ breach found = some wrong ∧
        concluded path node breach search =
          { violate path wrong node with filled := search.2 } := by
  obtain ⟨found, filled⟩ := search
  cases found with
  | error e =>
      exact .inl ⟨e, rfl, rfl⟩
  | ok found =>
      cases wrong : breach found with
      | none =>
          exact .inr (.inl ⟨found, rfl, wrong, by simp [concluded, wrong]⟩)
      | some wrong' =>
          exact .inr (.inr ⟨found, wrong', rfl, wrong, by simp [concluded, wrong]⟩)

theorem data_concluded
    (search : Except SchemaError β × List Pointer) :
    (concluded path node breach search).data = node := by
  rcases concluded_cases path node breach search with
    ⟨_, _, eq⟩ | ⟨_, _, _, eq⟩ | ⟨_, _, _, _, eq⟩ <;>
    exact congrArg Outcome.data eq

theorem verdict_concluded
    (search : Except SchemaError β × List Pointer) :
    (concluded path node breach search).verdict =
      search.1.map fun found => (breach found).isNone := by
  rcases concluded_cases path node breach search with
    ⟨e, failed, eq⟩ | ⟨found, read, fine, eq⟩ | ⟨found, wrong, read, broken, eq⟩
  · rw [eq, failed]
    rfl
  · rw [eq, read, Except.map, fine]
    rfl
  · rw [eq, read, Except.map, broken]
    rfl

/-- A conclusion decides a condition if nothing is wrong exactly where it holds. -/
theorem decides_concluded
    {condition : Prop} {search : Except SchemaError β × List Pointer}
    (h : ∀ found, search.1 = .ok found → (breach found = none ↔ condition)) :
    (concluded path node breach search).Decides node condition := by
  intro passed verdict
  refine ⟨data_concluded search, ?_⟩
  rw [verdict_concluded] at verdict
  cases read : search.1 with
  | error e =>
      rw [read] at verdict
      cases verdict
  | ok found =>
      rw [read] at verdict
      cases verdict
      rw [← h found read, Option.isNone_iff_eq_none]

/-- What a conclusion reports is what was wrong with the find, at the node. -/
theorem mem_concluded
    {violation : Violation} {search : Except SchemaError β × List Pointer}
    (mem : violation ∈ (concluded path node breach search).violations) :
    violation.place = path ∧ ∃ found, breach found = some violation.breach := by
  rcases concluded_cases path node breach search with
    ⟨_, _, eq⟩ | ⟨_, _, _, eq⟩ | ⟨found, wrong, _, broken, eq⟩
  · simp [eq, raise] at mem
  · simp [eq, pass] at mem
  · rw [eq] at mem
    rw [List.mem_singleton.mp mem]
    exact ⟨rfl, found, broken⟩

end Concluded

end Check

namespace Schema

open Check Outcome

/-! ## The keywords that search -/

section Keywords

variable {path : Pointer}

theorem passesAny_eq
    (path : Pointer)
    (checks : List (Check Tree))
    (node : Tree) :
    passesAny path checks node = concluded path node
      (fun found => if found.isSome then none else some .notAny) (firstPassed node 0 checks) := by
  unfold passesAny concluded
  rcases firstPassed node 0 checks with ⟨_ | _ | _, filled⟩ <;> rfl

theorem passesNone_eq
    (path : Pointer)
    (checks : List (Check Tree))
    (node : Tree) :
    passesNone path checks node = concluded path node
      (fun found => found.map .forbidden) (firstPassed node 0 checks) := by
  unfold passesNone concluded
  rcases firstPassed node 0 checks with ⟨_ | _ | _, filled⟩ <;> rfl

theorem passesOne_eq
    (path : Pointer)
    (checks : List (Check Tree))
    (node : Tree) :
    passesOne path checks node = concluded path node
      (fun count => if count = 1 then none else some (if count = 0 then .notOne else .moreThanOne))
      (countPassed node 0 checks) := by
  unfold passesOne concluded
  rcases countPassed node 0 checks with ⟨_ | _ | _ | _, filled⟩ <;> rfl

theorem verdict_passesAny
    (checks : List (Check Tree))
    (node : Tree) :
    (passesAny path checks node).verdict = (firstPassed node 0 checks).1.map Option.isSome := by
  rw [passesAny_eq, verdict_concluded]
  exact congrArg (Except.map · _) (funext fun found => by cases found <;> rfl)

theorem verdict_passesNone
    (checks : List (Check Tree))
    (node : Tree) :
    (passesNone path checks node).verdict = (firstPassed node 0 checks).1.map Option.isNone := by
  rw [passesNone_eq, verdict_concluded]
  exact congrArg (Except.map · _) (funext fun found => by cases found <;> rfl)

theorem verdict_passesOne
    (checks : List (Check Tree))
    (node : Tree) :
    (passesOne path checks node).verdict = (countPassed node 0 checks).1.map (· == 1) := by
  rw [passesOne_eq, verdict_concluded]
  exact congrArg (Except.map · _) (funext fun count => by by_cases one : count = 1 <;> simp [one])

theorem looks_passesAny
    (checks : List (Check Tree)) :
    Looks (passesAny path checks) := by
  intro node
  rw [passesAny_eq]
  exact data_concluded _

theorem looks_passesNone
    (checks : List (Check Tree)) :
    Looks (passesNone path checks) := by
  intro node
  rw [passesNone_eq]
  exact data_concluded _

theorem looks_passesOne
    (checks : List (Check Tree)) :
    Looks (passesOne path checks) := by
  intro node
  rw [passesOne_eq]
  exact data_concluded _

end Keywords

end Schema
end JsonDoc
