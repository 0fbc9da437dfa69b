import JsonDoc.Schema.Error
import JsonDoc.Schema.Violation

/-!
# Checks

A check looks at a part of a document and may fill in defaults there. What it comes to is an
`Outcome`: the part as it is afterwards, the violations found, the places that were filled, and a
verdict, which is an error if the schema cannot be evaluated.

Checks are put together by `Check.all`, which runs them in order on the data that the one before
left. An error ends the run, and without `collectAll` a failed check does too.
-/

namespace JsonDoc

/-- What a check comes to. -/
structure Outcome (α : Type) where
  /-- The data as the check leaves it. -/
  data : α
  violations : List Violation
  /-- Where defaults were filled in. -/
  filled : List Pointer
  verdict : Except SchemaError Bool

namespace Outcome

/-- Whether the run goes on after this outcome. -/
def goesOn {α : Type} (collectAll : Bool) (outcome : Outcome α) : Bool :=
  match outcome.verdict with
  | .error _ => false
  | .ok passed => passed || collectAll

/-- The outcome with its data seen as a part of something larger. -/
def map {α β : Type} (f : α → β) (outcome : Outcome α) : Outcome β :=
  { outcome with data := f outcome.data }

/-- The outcome of going on with a second check after a first one: passed if both are. -/
def join {α β : Type} (first : Outcome α) (second : Outcome β) : Outcome β where
  data := second.data
  violations := first.violations ++ second.violations
  filled := first.filled ++ second.filled
  verdict :=
    match first.verdict with
    | .error e => .error e
    | .ok passed => second.verdict.map (passed && ·)

end Outcome

/-- A way to look at some data. -/
abbrev Check (α : Type) := α → Outcome α

namespace Check

variable {α : Type}

/-- The data is as it should be. -/
def pass : Check α := fun data => ⟨data, [], [], .ok true⟩

/-- The data breaks a keyword. -/
def violate (place : Pointer) (breach : Breach) : Check α := fun data =>
  ⟨data, [⟨place, breach⟩], [], .ok false⟩

/-- The schema cannot be evaluated. -/
def raise (e : SchemaError) : Check α := fun data => ⟨data, [], [], .error e⟩

/-- Passes if a condition holds. -/
def demand (condition : Bool) (place : Pointer) (breach : Breach) : Check α :=
  if condition then pass else violate place breach

/-- The check for a keyword's value: none without the keyword, an error for a bad value. -/
def ofKeyword {β : Type} (value : Except SchemaError (Option β)) (check : β → Check α) :
    Check α :=
  match value with
  | .error e => raise e
  | .ok none => pass
  | .ok (some value) => check value

/-- One check after another. -/
def all (collectAll : Bool) : List (Check α) → Check α
  | [], data => pass data
  | check :: checks, data =>
    let first := check data
    if first.goesOn collectAll then first.join (all collectAll checks first.data) else first

/-- A second check for data that has passed a first one. -/
def whenPassed (first second : Check α) : Check α := fun data =>
  let outcome := first data
  match outcome.verdict with
  | .ok true => outcome.join (second outcome.data)
  | _ => outcome

/-- Each item with the check for its index, counted from `index`. -/
def eachItem (collectAll : Bool) (check : Nat → Check Tree) : Nat → Check (List Tree)
  | _, [] => pass []
  | index, item :: items =>
    let first := check index item
    if first.goesOn collectAll then
      let rest := eachItem collectAll check (index + 1) items
      first.join (rest.map (first.data :: ·))
    else first.map (· :: items)

/-- Looks without leaving a trace: the data stays as it was and no violation is kept. -/
def probe (check : Check α) : Check α := fun data =>
  { check data with data := data, violations := [] }

/-- The index of the first check that passes, none if there is none; an error on the way counts
first. The checks are probes, and the pointers are the places they filled. -/
def firstPassed (data : α) : Nat → List (Check α) → Except SchemaError (Option Nat) × List Pointer
  | _, [] => (.ok none, [])
  | index, check :: checks =>
    let outcome := probe check data
    match outcome.verdict with
    | .error e => (.error e, outcome.filled)
    | .ok true => (.ok (some index), outcome.filled)
    | .ok false =>
      let (found, filled) := firstPassed data (index + 1) checks
      (found, outcome.filled ++ filled)

/-- How many checks pass, counted up to two, after which the rest is not looked at. -/
def countPassed (data : α) : Nat → List (Check α) → Except SchemaError Nat × List Pointer
  | count, [] => (.ok count, [])
  | count, check :: checks =>
    if 1 < count then (.ok count, [])
    else
      let outcome := probe check data
      match outcome.verdict with
      | .error e => (.error e, outcome.filled)
      | .ok passed =>
        let (total, filled) := countPassed data (if passed then count + 1 else count) checks
        (total, outcome.filled ++ filled)

end Check
end JsonDoc
