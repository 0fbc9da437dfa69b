import JsonDoc.Proofs.Schema.Relating

/-!
# Stopping early

A run that stops at the first failure is compared with one that goes on for all violations. Where
the long run comes to a verdict, the short one comes to the same verdict, with the same first
violation and some of the others, `Outcome.Shortens`. Checks that agree in this way still agree
when they are put together, `Schema.respects_agrees`.

Only a run that passed has the same data: after a failure the long run goes on and may fill in
more. So the two runs are compared from the same data up to the first failure, and after it the
short run does nothing any more.
-/

namespace JsonDoc
namespace Outcome

variable {α β : Type}

/-- An outcome that stops early, beside one that goes on and comes to a verdict. -/
structure Shortens (early full : Outcome α) (passed : Bool) : Prop where
  verdict : early.verdict = .ok passed
  sublist : early.violations.Sublist full.violations
  first : early.violations.head? = full.violations.head?
  /-- A failure is reported, so that nothing found later comes first. -/
  reported : passed = false → full.violations ≠ []
  data : passed = true → early.data = full.data

variable {early full : Outcome α} {passed : Bool}

/-- An outcome with its data seen as a part of something larger. -/
theorem Shortens.map
    (h : early.Shortens full passed)
    (f : α → β) :
    (early.map f).Shortens (full.map f) passed where
  verdict := h.verdict
  sublist := h.sublist
  first := h.first
  reported := h.reported
  data := fun holds => congrArg f (h.data holds)

/-- Where defaults were filled in does not matter. -/
theorem Shortens.filled
    (h : early.Shortens full passed)
    (before after : List Pointer) :
    Shortens { early with filled := before } { full with filled := after } passed :=
  ⟨h.verdict, h.sublist, h.first, h.reported, h.data⟩

/-- One more violation follows a failure, in both runs. -/
theorem Shortens.noted
    (h : early.Shortens full passed)
    (verdict : full.verdict = .ok passed)
    (path : Pointer) :
    (early.noted path).Shortens (full.noted path) passed := by
  unfold Outcome.noted
  simp only [h.verdict, verdict]
  cases passed with
  | true =>
      exact h
  | false =>
      refine ⟨rfl, h.sublist.append_right _, ?_, by simp, by simp⟩
      simp only [List.head?_append, h.first]

/-- Both runs go on after a part that passed. -/
theorem Shortens.join
    {early' full' : Outcome β}
    (h : early.Shortens full true)
    (k : early'.Shortens full' passed) :
    (early.join early').Shortens (full.join full') passed where
  verdict := by
    simp [Outcome.join, h.verdict, k.verdict, Except.map]
  sublist := h.sublist.append k.sublist
  first := by
    simp only [Outcome.join, List.head?_append, h.first, k.first]
  reported := by
    intro failed none
    exact k.reported failed (List.append_eq_nil_iff.mp none).2
  data := k.data

/-- Only the long run goes on after a part that failed. -/
theorem Shortens.stop
    (h : early.Shortens full false)
    (full' : Outcome α) :
    early.Shortens (full.join full') false where
  verdict := h.verdict
  sublist := h.sublist.trans (List.sublist_append_left _ _)
  first := by
    obtain ⟨violation, more, eq⟩ := List.exists_cons_of_ne_nil (h.reported rfl)
    simp [Outcome.join, h.first, eq]
  reported := by
    intro _ none
    exact h.reported rfl (List.append_eq_nil_iff.mp none).1
  data := by
    intro holds
    cases holds

/-- Wherever the long run comes to a verdict, the short one stops early with it. -/
def Agrees (early full : Outcome α) : Prop :=
  ∀ passed, full.verdict = .ok passed → early.Shortens full passed

/-- Going on with a part that agrees, the short run only if nothing failed. -/
theorem Agrees.andThen
    {goes : Bool} {keep : α → β} {next next' : α → Outcome β}
    (h : early.Agrees full)
    (k : ∀ data, (next data).Agrees (next' data)) :
    (early.andThen false keep next).Agrees (full.andThen goes keep next') := by
  intro passed verdict
  cases first : full.verdict with
  | error e =>
      simp [Outcome.andThen, goesOn, first, Outcome.map] at verdict
  | ok a =>
      have short := h a first
      cases a with
      | true =>
          simp only [Outcome.andThen, goesOn, first, short.verdict, Bool.true_or, if_true]
            at verdict ⊢
          obtain ⟨a, b, same, rest, rfl⟩ := Check.verdict_join verdict
          cases first.symm.trans same
          rw [short.data rfl]
          exact short.join (k _ b rest)
      | false =>
          simp only [Outcome.andThen, goesOn, first, short.verdict, Bool.false_or,
            Bool.false_eq_true, if_false] at verdict ⊢
          split at verdict
          · obtain ⟨a, b, same, rest, rfl⟩ := Check.verdict_join verdict
            cases first.symm.trans same
            rw [if_pos ‹_›]
            exact (short.map keep).stop _
          · cases first.symm.trans verdict
            rw [if_neg ‹_›]
            exact short.map keep

end Outcome

namespace Schema

open Check Outcome

/-- Stopping early and going on agree on checks that are put together, if they do on the parts. -/
theorem respects_agrees :
    Respects false true (fun _ => True) Outcome.Agrees Outcome.Agrees where
  pass data := by
    rintro _ ⟨⟩
    exact ⟨rfl, .refl _, rfl, by simp, fun _ => rfl⟩
  violate place breach data := by
    rintro _ ⟨⟩
    exact ⟨rfl, .refl _, rfl, by simp [violate], by simp⟩
  raise e data _ := nofun
  map f h := fun passed verdict => (h passed verdict).map f
  after filled h := fun passed verdict => (h passed verdict).filled _ _
  noted path h := by
    intro passed verdict
    rw [noted_verdict] at verdict
    exact (h passed verdict).noted verdict path
  andThen keep flags h k := by
    rcases flags with ⟨rfl, rfl⟩ | ⟨rfl, rfl⟩
    · exact h.andThen k
    · exact h.andThen k
  decides node h k := by
    intro passed verdict
    unfold Outcome.decides at verdict ⊢
    split at verdict
    · cases verdict
    · rename_i branch
      rw [(h _ branch).verdict]
      exact (k _ passed verdict).filled _ _

end Schema
end JsonDoc
