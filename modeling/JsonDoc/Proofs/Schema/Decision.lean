import JsonDoc.Schema.Check
import Mathlib.Data.List.Forall2

/-!
# Verdicts

An outcome decides a condition when it leaves the data as it was and passes exactly if the
condition holds, unless the schema cannot be evaluated. Checks that are put together decide what
the conditions come to, whatever they skip on the way.
-/

namespace JsonDoc
namespace Outcome

variable {α β : Type}

/-- A verdict without an error tells whether the condition holds, and the data is unchanged. -/
def Decides (outcome : Outcome α) (data : α) (condition : Prop) : Prop :=
  ∀ passed, outcome.verdict = .ok passed → outcome.data = data ∧ (passed = true ↔ condition)

variable {outcome : Outcome α} {data : α} {p q : Prop}

theorem Decides.congr
    (h : outcome.Decides data p)
    (same : p ↔ q) :
    outcome.Decides data q := by
  intro passed verdict
  obtain ⟨unchanged, decides⟩ := h passed verdict
  exact ⟨unchanged, decides.trans same⟩

/-- An outcome for a part, seen as one for the whole that it is a part of. -/
theorem Decides.map
    {f : α → β} {whole : β}
    (h : outcome.Decides data p)
    (eq : f data = whole) :
    (outcome.map f).Decides whole p := by
  intro passed verdict
  obtain ⟨unchanged, decides⟩ := h passed verdict
  refine ⟨?_, decides⟩
  rw [← eq, ← unchanged]
  rfl

/-- A second outcome after one that passed, or whose failure does not end the run. -/
theorem Decides.join
    {second : Outcome β} {data' : β}
    (h : outcome.Decides data p)
    (k : second.Decides data' q) :
    (outcome.join second).Decides data' (p ∧ q) := by
  intro passed verdict
  simp only [Outcome.join] at verdict ⊢
  cases first : outcome.verdict with
  | error e =>
      simp [first] at verdict
  | ok a =>
      cases last : second.verdict with
      | error e =>
          simp [first, last, Except.map] at verdict
      | ok b =>
          obtain ⟨_, left⟩ := h a first
          obtain ⟨unchanged, right⟩ := k b last
          simp only [first, last, Except.map, Except.ok.injEq] at verdict
          subst verdict
          exact ⟨unchanged, by rw [Bool.and_eq_true, left, right]⟩

end Outcome

namespace Check

open Outcome

variable {α β γ : Type} {data : α} {p q : Prop} {collectAll : Bool}

theorem decides_pass
    (data : α) :
    (pass data).Decides data True := by
  intro passed verdict
  cases verdict
  exact ⟨rfl, by simp⟩

theorem decides_violate
    (data : α)
    (place : Pointer)
    (breach : Breach) :
    (violate place breach data).Decides data False := by
  intro passed verdict
  cases verdict
  exact ⟨rfl, by simp⟩

theorem decides_raise
    (data : α)
    (e : SchemaError)
    (p : Prop) :
    (raise e data).Decides data p := by
  intro passed verdict
  cases verdict

theorem decides_demand
    (data : α)
    (condition : Bool)
    (place : Pointer)
    (breach : Breach) :
    (demand condition place breach data).Decides data (condition = true) := by
  cases condition with
  | true =>
      exact (decides_pass data).congr (by simp)
  | false =>
      exact (decides_violate data place breach).congr (by simp)

/-- A check for a keyword whose value is known unless it is malformed. -/
theorem decides_ofKeyword
    {value : Except SchemaError (Option β)} {known : Option β} {check : β → Check α}
    {P : β → Prop}
    (reads : ∀ v, value = .ok v → known = v)
    (h : ∀ b, known = some b → (check b data).Decides data (P b)) :
    (ofKeyword value check data).Decides data (∀ b, known = some b → P b) := by
  cases value with
  | error e =>
      exact decides_raise data e _
  | ok v =>
      rw [reads v rfl] at h ⊢
      cases v with
      | none =>
          exact (decides_pass data).congr (by simp)
      | some b =>
          exact (h b rfl).congr (by simp)

/-! ## One check after another -/

theorem decides_all_nil
    (data : α) :
    (all collectAll [] data).Decides data True :=
  decides_pass data

/-- Where a failed check ends the run, the others do not matter any more. -/
theorem decides_all_cons
    {check : Check α} {checks : List (Check α)}
    (h : (check data).Decides data p)
    (k : (all collectAll checks data).Decides data q) :
    (all collectAll (check :: checks) data).Decides data (p ∧ q) := by
  unfold all
  simp only
  cases verdict : (check data).verdict with
  | error e =>
      have ends : (check data).goesOn collectAll = false := by
        simp [goesOn, verdict]
      rw [ends]
      intro passed verdict'
      simp [verdict] at verdict'
  | ok a =>
      obtain ⟨unchanged, decides⟩ := h a verdict
      split
      · rw [unchanged]
        exact h.join k
      · rename_i ends
        have failed : a = false := by
          simp only [goesOn, verdict, Bool.or_eq_true, not_or, Bool.not_eq_true] at ends
          exact ends.1
        refine h.congr ?_
        rw [← decides, failed]
        simp

/-- One check for each of some subjects, each of which decides a condition on its subject. -/
def DecidesEach
    (data : α)
    (P : γ → Prop)
    (checks : List (Check α))
    (xs : List γ) : Prop :=
  List.Forall₂ (fun check x => (check data).Decides data (P x)) checks xs

variable {P : γ → Prop} {checks : List (Check α)} {xs : List γ}

theorem decides_all
    (h : DecidesEach data P checks xs) :
    (all collectAll checks data).Decides data (∀ x ∈ xs, P x) := by
  induction h with
  | nil =>
      exact (decides_all_nil data).congr (by simp)
  | cons first _ ih =>
      exact (decides_all_cons first ih).congr (by simp)

theorem decides_whenPassed
    {first second : Check α}
    (h : (first data).Decides data p)
    (k : (second data).Decides data q) :
    (whenPassed first second data).Decides data (p ∧ q) := by
  unfold whenPassed
  simp only
  split
  · rename_i verdict
    rw [(h true verdict).1]
    exact h.join k
  · rename_i notPassed
    intro passed verdict
    obtain ⟨unchanged, decides⟩ := h passed verdict
    have failed : passed = false := by
      cases passed with
      | false =>
          rfl
      | true =>
          exact absurd verdict (notPassed)
    refine ⟨unchanged, ?_⟩
    rw [← decides, failed]
    simp

/-- Items with a check for each index. -/
theorem decides_eachItem
    {check : Nat → Check Tree} {P : Nat → Tree → Prop}
    (items : List Tree) :
    ∀ index : Nat,
      (∀ i item, items[i]? = some item →
        (check (index + i) item).Decides item (P (index + i) item)) →
      (eachItem collectAll check index items).Decides items
        (∀ i item, items[i]? = some item → P (index + i) item) := by
  induction items with
  | nil =>
      intro index _
      exact (decides_pass []).congr (by simp)
  | cons item items ih =>
      intro index h
      have first : (check index item).Decides item (P index item) := h 0 item rfl
      have rest := ih (index + 1) fun i other at_ => by
        have := h (i + 1) other at_
        rwa [← Nat.add_assoc, Nat.add_right_comm] at this
      have both : (P index item ∧ ∀ i other, items[i]? = some other → P (index + 1 + i) other) ↔
          ∀ i other, (item :: items)[i]? = some other → P (index + i) other := by
        constructor
        · rintro ⟨here, others⟩ i other at_
          cases i with
          | zero =>
              cases at_
              exact here
          | succ i =>
              have := others i other at_
              rwa [Nat.add_right_comm, Nat.add_assoc] at this
        · intro all
          refine ⟨all 0 item rfl, ?_⟩
          intro i other at_
          have := all (i + 1) other at_
          rwa [← Nat.add_assoc, Nat.add_right_comm] at this
      unfold eachItem
      simp only
      cases verdict : (check index item).verdict with
      | error e =>
          have ends : (check index item).goesOn collectAll = false := by
            simp [goesOn, verdict]
          rw [ends]
          intro passed verdict'
          simp [Outcome.map, verdict] at verdict'
      | ok a =>
          obtain ⟨unchanged, decides⟩ := first a verdict
          split
          · rw [unchanged]
            exact (first.join (rest.map rfl)).congr both
          · rename_i ends
            have failed : a = false := by
              simp only [goesOn, verdict, Bool.or_eq_true, not_or, Bool.not_eq_true] at ends
              exact ends.1
            refine (first.map rfl).congr ?_
            rw [← both, ← decides, failed]
            simp

/-! ## Branches -/

theorem firstPassed_isSome
    (h : DecidesEach data P checks xs) :
    ∀ (index : Nat) (found : Option Nat), (firstPassed data index checks).1 = .ok found →
      (found.isSome ↔ ∃ x ∈ xs, P x) := by
  induction h with
  | nil =>
      intro index found eq
      cases eq
      simp
  | @cons check x checks xs first _ ih =>
      intro index found eq
      simp only [firstPassed, probe] at eq
      cases verdict : (check data).verdict with
      | error e =>
          simp [verdict] at eq
      | ok a =>
          obtain ⟨_, decides⟩ := first a verdict
          cases a with
          | true =>
              simp only [verdict, Except.ok.injEq] at eq
              subst eq
              simp [decides.mp rfl]
          | false =>
              simp only [verdict] at eq
              have notHere : ¬ P x := fun holds => by simpa using decides.mpr holds
              rw [ih (index + 1) found eq]
              simp [notHere]

/-- After one branch that passes, counting tells whether another one does. -/
theorem countPassed_one
    (h : DecidesEach data P checks xs) :
    ∀ count : Nat, (countPassed data 1 checks).1 = .ok count →
      (count = 1 ↔ ∀ x ∈ xs, ¬ P x) := by
  induction h with
  | nil =>
      intro count eq
      cases eq
      simp
  | @cons check x checks xs first _ ih =>
      intro count eq
      simp only [countPassed, probe, Nat.lt_irrefl, if_false] at eq
      cases verdict : (check data).verdict with
      | error e =>
          simp [verdict] at eq
      | ok a =>
          obtain ⟨_, decides⟩ := first a verdict
          cases a with
          | true =>
              have two : countPassed data 2 checks = (.ok 2, []) := by
                cases checks <;> simp [countPassed]
              simp only [verdict, if_true, two, Except.ok.injEq] at eq
              subst eq
              simp [decides.mp rfl]
          | false =>
              simp only [verdict, Bool.false_eq_true, if_false] at eq
              have notHere : ¬ P x := fun holds => by simpa using decides.mpr holds
              rw [ih count eq]
              simp [notHere]

/-- The condition holds for exactly one of the subjects. -/
def ExactlyOne (P : γ → Prop) : List γ → Prop
  | [] => False
  | x :: xs => (P x ∧ ∀ y ∈ xs, ¬ P y) ∨ (¬ P x ∧ ExactlyOne P xs)

theorem countPassed_zero
    (h : DecidesEach data P checks xs) :
    ∀ count : Nat, (countPassed data 0 checks).1 = .ok count →
      (count = 1 ↔ ExactlyOne P xs) := by
  induction h with
  | nil =>
      intro count eq
      cases eq
      simp [ExactlyOne]
  | @cons check x checks xs first others ih =>
      intro count eq
      simp only [countPassed, probe, Nat.not_lt_zero, if_false] at eq
      cases verdict : (check data).verdict with
      | error e =>
          simp [verdict] at eq
      | ok a =>
          obtain ⟨_, decides⟩ := first a verdict
          cases a with
          | true =>
              simp only [verdict, if_true] at eq
              rw [countPassed_one others count eq]
              simp [ExactlyOne, decides.mp rfl]
          | false =>
              simp only [verdict, Bool.false_eq_true, if_false] at eq
              have notHere : ¬ P x := fun holds => by simpa using decides.mpr holds
              rw [ih count eq]
              simp [ExactlyOne, notHere]

theorem exactlyOne_iff
    (xs : List γ) :
    ExactlyOne P xs ↔
      ∃ i, ∃ _ : i < xs.length, P xs[i] ∧ ∀ j, (_ : j < xs.length) → P xs[j] → j = i := by
  induction xs with
  | nil =>
      simp [ExactlyOne]
  | cons x xs ih =>
      rw [ExactlyOne, ih]
      constructor
      · rintro (⟨here, none⟩ | ⟨notHere, i, hi, holds, only⟩)
        · refine ⟨0, by simp, here, ?_⟩
          intro j hj holds
          cases j with
          | zero =>
              rfl
          | succ j =>
              exact absurd holds (none _ (List.getElem_mem (by simpa using hj)))
        · refine ⟨i + 1, by simpa using hi, holds, ?_⟩
          intro j hj holds'
          cases j with
          | zero =>
              exact absurd holds' notHere
          | succ j =>
              rw [only j (by simpa using hj) holds']
      · rintro ⟨i, hi, holds, only⟩
        cases i with
        | zero =>
            refine Or.inl ⟨holds, ?_⟩
            intro y mem holds'
            obtain ⟨j, hj, rfl⟩ := List.getElem_of_mem mem
            have := only (j + 1) (by simpa using hj) holds'
            simp at this
        | succ i =>
            refine Or.inr ⟨?_, i, by simpa using hi, holds, ?_⟩
            · intro here
              have := only 0 (by simp) here
              simp at this
            · intro j hj holds'
              have := only (j + 1) (by simpa using hj) holds'
              omega

end Check
end JsonDoc
