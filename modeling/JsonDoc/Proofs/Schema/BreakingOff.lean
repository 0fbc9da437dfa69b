import JsonDoc.Proofs.Schema.RelatedLevel

/-!
# Runs that break off

Two runs are the same up to a point where one of them may break off with an error that the other
one does not come upon. What the broken run has found by then is what the other one found first:
`Outcome.BreaksOff`. Checks that are put together break off where one of their parts does,
`respects_breaksOff`. A part whose violations are thrown away may break off too.
-/

namespace JsonDoc
namespace Outcome

variable {α β : Type} {P Q : SchemaError → Prop} {broken whole : Outcome α}

/-- The first run is the second one, or it ends with an error of some sort, and what it has found
by then is what the second one found first. -/
def BreaksOff (P : SchemaError → Prop) (broken whole : Outcome α) : Prop :=
  broken = whole ∨
    ∃ e, broken.verdict = .error e ∧ P e ∧ broken.violations <+: whole.violations

theorem BreaksOff.mono
    (h : BreaksOff P broken whole)
    (weaker : ∀ e, P e → Q e) :
    BreaksOff Q broken whole := by
  rcases h with same | ⟨e, failed, sort, found⟩
  · exact Or.inl same
  · exact Or.inr ⟨e, failed, weaker e sort, found⟩

theorem BreaksOff.violations
    (h : BreaksOff P broken whole) :
    broken.violations <+: whole.violations := by
  rcases h with rfl | ⟨_, _, _, found⟩
  · exact List.prefix_rfl
  · exact found

theorem violations_prefix_andThen
    {goes : Bool} {keep : α → β} {next : α → Outcome β} :
    whole.violations <+: (whole.andThen goes keep next).violations := by
  unfold andThen
  split
  · exact List.prefix_append _ _
  · exact List.prefix_rfl

theorem violations_prefix_noted
    {path : Pointer} :
    whole.violations <+: (whole.noted path).violations := by
  unfold noted
  split
  · exact List.prefix_append _ _
  · exact List.prefix_rfl

/-- A run that has come to an error does not go on. -/
theorem andThen_of_error
    {goes : Bool} {keep : α → β} {next : α → Outcome β} {e : SchemaError}
    (failed : whole.verdict = .error e) :
    whole.andThen goes keep next = whole.map keep := by
  simp [andThen, goesOn, failed]

theorem BreaksOff.map
    (h : BreaksOff P broken whole)
    (f : α → β) :
    BreaksOff P (broken.map f) (whole.map f) := by
  rcases h with rfl | broke
  · exact Or.inl rfl
  · exact Or.inr broke

theorem BreaksOff.after
    (h : BreaksOff P broken whole)
    (filled : List Pointer) :
    BreaksOff P (broken.after filled) (whole.after filled) := by
  rcases h with rfl | broke
  · exact Or.inl rfl
  · exact Or.inr broke

/-- Where the second of two parts breaks off, both together do. -/
theorem BreaksOff.join
    {first : Outcome α} {broken whole : Outcome β} {passed : Bool}
    (verdict : first.verdict = .ok passed)
    (h : BreaksOff P broken whole) :
    BreaksOff P (first.join broken) (first.join whole) := by
  rcases h with rfl | ⟨e, failed, sort, found⟩
  · exact Or.inl rfl
  · refine Or.inr ⟨e, ?_, sort, (List.prefix_append_right_inj _).mpr found⟩
    simp [Outcome.join, verdict, failed, Except.map]

theorem BreaksOff.andThen
    {goes : Bool} {keep : α → β} {next next' : α → Outcome β}
    (h : BreaksOff P broken whole)
    (k : ∀ data, BreaksOff P (next data) (next' data)) :
    BreaksOff P (broken.andThen goes keep next) (whole.andThen goes keep next') := by
  rcases h with rfl | ⟨e, failed, sort, found⟩
  · cases verdict : broken.verdict with
    | error e =>
        rw [andThen_of_error verdict, andThen_of_error verdict]
        exact Or.inl rfl
    | ok passed =>
        unfold Outcome.andThen
        split
        · exact (k _).join verdict
        · exact Or.inl rfl
  · rw [andThen_of_error failed]
    exact Or.inr ⟨e, failed, sort, found.trans violations_prefix_andThen⟩

end Outcome

namespace Schema

open Check Outcome

/-- Checks that are put together break off where one of their parts does. -/
theorem respects_breaksOff
    (collectAll : Bool)
    (P : SchemaError → Prop) :
    Respects collectAll collectAll (fun _ => True) (BreaksOff P) (BreaksOff P) where
  pass _ := Or.inl rfl
  violate _ _ _ := Or.inl rfl
  raise _ _ _ := Or.inl rfl
  map f h := h.map f
  after filled h := h.after filled
  noted path h := by
    rcases h with rfl | ⟨e, failed, sort, found⟩
    · exact Or.inl rfl
    · refine Or.inr ⟨e, (noted_verdict path _).trans failed, sort, ?_⟩
      simp only [noted, failed]
      exact found.trans violations_prefix_noted
  andThen keep flags h k := by
    rcases flags with ⟨rfl, rfl⟩ | ⟨rfl, rfl⟩
    · exact h.andThen k
    · exact h.andThen k
  decides node h k := by
    rcases h with rfl | ⟨e, failed, sort, _⟩
    · unfold decides
      split
      · exact Or.inl rfl
      · exact (k _).after _
    · refine Or.inr ⟨e, ?_, sort, ?_⟩ <;> simp only [decides, failed]
      · rfl
      · exact List.nil_prefix

end Schema
end JsonDoc
