import JsonDoc.Proofs.Schema.RelatedLevel

/-!
# Errors of checks

`Check.Raises` says of what sort the errors of a check are. An error of checks that are put together
is an error of one of them, also where their data is thrown away afterwards: `respects_raises`. So
the errors of a level are about its keywords, or come from a schema below.
-/

namespace JsonDoc

namespace Check

variable {α β : Type} {P : SchemaError → Prop}

/-- Every error of the check is of this sort. -/
def Raises (P : SchemaError → Prop) (check : Check α) : Prop :=
  ∀ data e, (check data).verdict = .error e → P e

theorem raises_pass :
    Raises P (pass : Check α) := nofun

theorem raises_raise
    {e : SchemaError}
    (h : P e) :
    Raises P (raise e : Check α) := by
  rintro _ _ ⟨⟩
  exact h

/-- An error of two checks in a row is an error of one of them. -/
theorem error_of_join
    {first : Outcome α} {second : Outcome β} {e : SchemaError}
    (failed : (first.join second).verdict = .error e) :
    first.verdict = .error e ∨ second.verdict = .error e := by
  unfold Outcome.join at failed
  simp only at failed
  split at failed
  · rename_i first
    exact Or.inl (first.trans failed)
  · cases last : second.verdict with
    | error e' =>
        rw [last] at failed
        exact Or.inr failed
    | ok passed =>
        rw [last] at failed
        cases failed

end Check

namespace Schema

open Check

variable {engine : Pattern.Engine}
variable {P : SchemaError → Prop} {collectAll : Bool}

/-- Checks that are put together raise what they raise alone. -/
theorem respects_raises
    (collectAll : Bool)
    (P : SchemaError → Prop) :
    Respects collectAll collectAll P (fun outcome _ => ∀ e, outcome.verdict = .error e → P e)
      fun outcome _ => ∀ e, outcome.verdict = .error e → P e where
  pass _ := nofun
  violate _ _ _ := nofun
  raise _ data raised := raises_raise raised data
  map _ h := h
  after _ h := h
  noted _ h := by
    intro e failed
    unfold Outcome.noted at failed
    split at failed
    · rename_i verdict
      cases verdict.symm.trans failed
    · exact h e failed
  andThen keep _ h k := by
    intro e failed
    unfold Outcome.andThen at failed
    split at failed
    · rcases error_of_join failed with first | next
      · exact h e first
      · exact k _ e next
    · exact h e failed
  decides _ h k := by
    intro e failed
    unfold Outcome.decides at failed
    split at failed
    · rename_i verdict
      cases failed
      exact h e verdict
    · exact k _ e failed

theorem raises_level
    {walk : Walk} {rules : Rules} {path place : Pointer}
    (here : ∀ e, Faulty rules place e → P e)
    (below : ∀ schema path place', Below rules place place' schema →
      Raises P (walk schema path place')) :
    Raises P (level engine collectAll walk rules path place) := by
  have related : Related _ (levelBy engine collectAll walk walk rules path place)
      (levelBy engine collectAll walk walk rules path place) :=
    (respects_raises collectAll P).level here below below
  exact related

end Schema

end JsonDoc
