import JsonDoc.Proofs.Schema.Searching

/-!
# Relations that checks respect

The ways to put checks together are few: one check after another, a second check for data that has
passed a first one, and the decision of what follows from branches that are probed. `Respects` lists
the rules for a relation of outcomes to go through all of them; then checks that are put together in
the same way come to related outcomes if their parts do. Facts about one outcome are relations that
leave the other one out.

What `anyOf`, `oneOf` and `not` look at is thrown away but for its verdict, so branches that are
probed have a relation of their own.
-/

namespace JsonDoc

namespace Outcome

variable {α β : Type}

/-- A second check where the run goes on, and otherwise the outcome as a part of something
larger. -/
def andThen
    (collectAll : Bool)
    (keep : α → β)
    (first : Outcome α)
    (next : α → Outcome β) : Outcome β :=
  if first.goesOn collectAll then first.join (next first.data) else first.map keep

/-- The outcome with one more violation if it failed. -/
def noted (path : Pointer) (outcome : Outcome α) : Outcome α :=
  match outcome.verdict with
  | .ok false => { outcome with violations := outcome.violations ++ [⟨path, .notAll⟩] }
  | _ => outcome

/-- The outcome after some members were filled in. -/
def after (filled : List Pointer) (outcome : Outcome α) : Outcome α :=
  { outcome with filled := filled ++ outcome.filled }

@[simp] theorem noted_verdict
    (path : Pointer)
    (outcome : Outcome α) :
    (outcome.noted path).verdict = outcome.verdict := by
  unfold noted
  split <;> rfl

/-- What follows from the verdict of a probed branch. -/
def decides
    (branch : Outcome α)
    (node : β)
    (next : Bool → Outcome β) : Outcome β :=
  match branch.verdict with
  | .error e => (Check.raise e node).after branch.filled
  | .ok passed => (next passed).after branch.filled

end Outcome

namespace Check

variable {α β : Type} {collectAll : Bool}

theorem all_eq
    (check : Check α)
    (checks : List (Check α))
    (data : α) :
    all collectAll (check :: checks) data =
      (check data).andThen collectAll id (all collectAll checks) := rfl

theorem eachItem_eq
    (check : Nat → Check Tree)
    (index : Nat)
    (item : Tree)
    (items : List Tree) :
    eachItem collectAll check index (item :: items) =
      (check index item).andThen collectAll (· :: items) fun first =>
        (eachItem collectAll check (index + 1) items).map (first :: ·) := rfl

theorem whenPassed_eq
    (first second : Check α)
    (data : α) :
    whenPassed first second data = (first data).andThen false id second := by
  unfold whenPassed Outcome.andThen
  obtain ⟨_, _, _, verdict⟩ := first data
  cases verdict with
  | error e =>
      rfl
  | ok passed =>
      cases passed <;> rfl

variable {path : Pointer} {node : α} {check : Check α} {checks : List (Check α)}

theorem concluded_firstPassed
    (breach : Option Nat → Option Breach)
    (index : Nat) :
    concluded path node breach (firstPassed node index (check :: checks)) =
      (check node).decides node fun passed =>
        if passed then concluded path node breach (.ok (some index), [])
        else concluded path node breach (firstPassed node (index + 1) checks) := by
  rw [firstPassed, Outcome.decides]
  cases verdict : (check node).verdict with
  | error e =>
      simp [concluded, probe, verdict, Outcome.after, raise]
  | ok passed =>
      cases passed <;> simp [concluded, probe, verdict, Outcome.after]

theorem concluded_countPassed
    (breach : Nat → Option Breach)
    {count : Nat}
    (more : ¬ 1 < count) :
    concluded path node breach (countPassed node count (check :: checks)) =
      (check node).decides node fun passed =>
        concluded path node breach
          (countPassed node (if passed then count + 1 else count) checks) := by
  rw [countPassed, if_neg more, Outcome.decides]
  cases verdict : (check node).verdict with
  | error e =>
      simp [concluded, probe, verdict, Outcome.after, raise]
  | ok passed =>
      simp [concluded, probe, verdict, Outcome.after]

end Check

namespace Schema

open Check Outcome

/-- Two checks come to related outcomes on all data. -/
def Related
    {α : Type}
    (R : Outcome α → Outcome α → Prop)
    (check check' : Check α) : Prop :=
  ∀ data, R (check data) (check' data)

/-- A relation `R` of outcomes that ways to put checks together respect, where probed branches are
related by `Q`. The two sides have a flag each for whether they collect all violations. Errors
about keywords need only be related if they are of the sort `Raised`. -/
structure Respects (collects collects' : Bool) (Raised : SchemaError → Prop)
    (R : ∀ {α : Type}, Outcome α → Outcome α → Prop) (Q : Outcome Tree → Outcome Tree → Prop) :
    Prop where
  pass : ∀ {α : Type} (data : α), R (Check.pass data) (Check.pass data)
  violate : ∀ {α : Type} (place : Pointer) (breach : Breach) (data : α),
    R (Check.violate place breach data) (Check.violate place breach data)
  raise : ∀ {α : Type} (e : SchemaError) (data : α), Raised e →
    R (Check.raise e data) (Check.raise e data)
  map : ∀ {α β : Type} {outcome outcome' : Outcome α} (f : α → β), R outcome outcome' →
    R (outcome.map f) (outcome'.map f)
  after : ∀ {α : Type} {outcome outcome' : Outcome α} (filled : List Pointer),
    R outcome outcome' → R (outcome.after filled) (outcome'.after filled)
  noted : ∀ {α : Type} {outcome outcome' : Outcome α} (path : Pointer),
    R outcome outcome' → R (outcome.noted path) (outcome'.noted path)
  /-- One check after another, and a second check for data that has passed a first one. -/
  andThen : ∀ {α β : Type} {goes goes' : Bool} {first first' : Outcome α}
    {next next' : α → Outcome β} (keep : α → β),
    goes = collects ∧ goes' = collects' ∨ goes = false ∧ goes' = false → R first first' →
    (∀ data, R (next data) (next' data)) →
    R (first.andThen goes keep next) (first'.andThen goes' keep next')
  decides : ∀ {branch branch' : Outcome Tree} {next next' : Bool → Outcome Tree} (node : Tree),
    Q branch branch' → (∀ passed, R (next passed) (next' passed)) →
    R (branch.decides node next) (branch'.decides node next')

section Transport

variable {collects collects' : Bool} {Raised : SchemaError → Prop}
variable {R : ∀ {α : Type}, Outcome α → Outcome α → Prop}
variable {Q : Outcome Tree → Outcome Tree → Prop}
variable (respects : Respects collects collects' Raised R Q)

include respects

namespace Respects

/-! ## Checks -/

theorem related_pass
    {α : Type} :
    Related R (Check.pass : Check α) Check.pass := respects.pass

theorem related_raise
    {α : Type} {e : SchemaError}
    (raised : Raised e) :
    Related R (Check.raise e : Check α) (Check.raise e) :=
  fun data => respects.raise e data raised

theorem related_demand
    {α : Type}
    (condition : α → Bool)
    (place : Pointer)
    (breach : α → Breach) :
    Related R (fun data => Check.demand (condition data) place (breach data) data)
      (fun data => Check.demand (condition data) place (breach data) data) := by
  intro data
  simp only
  cases condition data with
  | true =>
      exact respects.pass data
  | false =>
      exact respects.violate place (breach data) data

theorem related_ofKeyword
    {α β : Type} {value : Except SchemaError (Option β)}
    {check check' : β → Check α}
    (malformed : ∀ e, value = .error e → Raised e)
    (h : ∀ b, value = .ok (some b) → Related R (check b) (check' b)) :
    Related R (Check.ofKeyword value check) (Check.ofKeyword value check') := by
  match value with
  | .error e =>
      exact respects.related_raise (malformed e rfl)
  | .ok none =>
      exact respects.related_pass
  | .ok (some b) =>
      exact h b rfl

theorem related_all
    {α : Type} {checks checks' : List (Check α)}
    (h : List.Forall₂ (Related R) checks checks') :
    Related R (Check.all collects checks) (Check.all collects' checks') := by
  induction h with
  | nil =>
      exact respects.related_pass
  | @cons check check' checks checks' first _ ih =>
      intro data
      rw [all_eq, all_eq]
      exact respects.andThen id (Or.inl ⟨rfl, rfl⟩) (first data) ih

theorem related_whenPassed
    {α : Type} {first first' second second' : Check α}
    (h : Related R first first')
    (k : Related R second second') :
    Related R (Check.whenPassed first second) (Check.whenPassed first' second') := by
  intro data
  rw [whenPassed_eq, whenPassed_eq]
  exact respects.andThen id (Or.inr ⟨rfl, rfl⟩) (h data) k

theorem related_eachItem
    {check check' : Nat → Check Tree}
    (h : ∀ index, Related R (check index) (check' index))
    (index : Nat) :
    Related R (Check.eachItem collects check index) (Check.eachItem collects' check' index) := by
  intro items
  induction items generalizing index with
  | nil =>
      exact respects.pass []
  | cons item items ih =>
      rw [eachItem_eq, eachItem_eq]
      exact respects.andThen _ (Or.inl ⟨rfl, rfl⟩) (h index item) fun first =>
        respects.map (first :: ·) (ih (index + 1))

/-! ## Branches -/

variable {path : Pointer} {node : Tree} {checks checks' : List (Check Tree)}

theorem concluded_ok
    {β : Type} {breach : β → Option Breach}
    (found : β) :
    R (concluded path node breach (.ok found, []))
      (concluded path node breach (.ok found, [])) := by
  unfold concluded
  simp only
  cases breach found with
  | none =>
      exact respects.pass node
  | some breach =>
      exact respects.violate path breach node

theorem related_firstPassed
    (breach : Option Nat → Option Breach)
    (h : List.Forall₂ (Related Q) checks checks')
    (index : Nat) :
    R (concluded path node breach (firstPassed node index checks))
      (concluded path node breach (firstPassed node index checks')) := by
  induction h generalizing index with
  | nil =>
      exact respects.concluded_ok none
  | cons first _ ih =>
      rw [concluded_firstPassed, concluded_firstPassed]
      refine respects.decides node (first node) fun passed => ?_
      cases passed with
      | true =>
          exact respects.concluded_ok (some index)
      | false =>
          exact ih (index + 1)

theorem related_countPassed
    (breach : Nat → Option Breach)
    (h : List.Forall₂ (Related Q) checks checks')
    (count : Nat) :
    R (concluded path node breach (countPassed node count checks))
      (concluded path node breach (countPassed node count checks')) := by
  induction h generalizing count with
  | nil =>
      exact respects.concluded_ok count
  | cons first _ ih =>
      by_cases enough : 1 < count
      · rw [countPassed, countPassed, if_pos enough, if_pos enough]
        exact respects.concluded_ok count
      · rw [concluded_countPassed breach enough, concluded_countPassed breach enough]
        exact respects.decides node (first node) fun passed => ih _

theorem related_passesAny
    (h : List.Forall₂ (Related Q) checks checks') :
    Related R (passesAny path checks) (passesAny path checks') := by
  intro node
  rw [passesAny_eq, passesAny_eq]
  exact respects.related_firstPassed _ h 0

theorem related_passesNone
    (h : List.Forall₂ (Related Q) checks checks') :
    Related R (passesNone path checks) (passesNone path checks') := by
  intro node
  rw [passesNone_eq, passesNone_eq]
  exact respects.related_firstPassed _ h 0

theorem related_passesOne
    (h : List.Forall₂ (Related Q) checks checks') :
    Related R (passesOne path checks) (passesOne path checks') := by
  intro node
  rw [passesOne_eq, passesOne_eq]
  exact respects.related_countPassed _ h 0

theorem related_passesAll
    (h : List.Forall₂ (Related R) checks checks') :
    Related R (passesAll collects path checks) (passesAll collects' path checks') :=
  fun node => respects.noted path (respects.related_all h node)

end Respects

end Transport

end Schema
end JsonDoc
