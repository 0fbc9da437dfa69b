import JsonDoc.Schema.Check
import Mathlib.Data.List.Forall2

/-!
# Passing again

`Outcome.Passes` says that a check is passed and what data it leaves. What two checks in a row
leave is what the second one leaves of what the first one has left.

A check may fill in defaults, and a check that has been passed need not be passed again after that.
`Check.Moves` says how far the data of a passed check can get, `Check.Repeats` from how far on a
passed check is passed again, without any change. If the second of two checks moves the data no
further than the first one bears, both repeat: `repeats_of_sequence`.
-/

namespace JsonDoc

/-- The check is passed and leaves the data `out`. -/
def Outcome.Passes {α : Type} (outcome : Outcome α) (out : α) : Prop :=
  outcome.verdict = .ok true ∧ outcome.data = out

namespace Check

variable {α β : Type} {data out : α} {collectAll : Bool} {place : Pointer} {breach : Breach}

/-! ## One check -/

theorem passes_pass :
    (pass data).Passes out ↔ out = data := by
  constructor
  · rintro ⟨_, rfl⟩
    rfl
  · rintro rfl
    exact ⟨rfl, rfl⟩

theorem not_passes_violate :
    ¬ (violate place breach data).Passes out := by
  rintro ⟨verdict, _⟩
  cases verdict

theorem not_passes_raise
    {e : SchemaError} :
    ¬ (raise e data).Passes out := by
  rintro ⟨verdict, _⟩
  cases verdict

theorem passes_demand
    {condition : Bool} :
    (demand condition place breach data).Passes out ↔ condition = true ∧ out = data := by
  cases condition with
  | true =>
      exact passes_pass.trans (by simp)
  | false =>
      exact iff_of_false not_passes_violate (by simp)

theorem passes_map
    {f : α → β} {outcome : Outcome α} {whole : β} :
    (outcome.map f).Passes whole ↔ ∃ out, outcome.Passes out ∧ whole = f out := by
  constructor
  · rintro ⟨verdict, rfl⟩
    exact ⟨_, ⟨verdict, rfl⟩, rfl⟩
  · rintro ⟨_, ⟨verdict, rfl⟩, rfl⟩
    exact ⟨verdict, rfl⟩

/-! ## One check after another -/

theorem all_cons
    (collectAll : Bool)
    (check : Check α)
    (checks : List (Check α))
    (data : α) :
    all collectAll (check :: checks) data =
      if (check data).goesOn collectAll then
        (check data).join (all collectAll checks (check data).data)
      else check data := rfl

theorem eachItem_cons
    (collectAll : Bool)
    (check : Nat → Check Tree)
    (index : Nat)
    (item : Tree)
    (items : List Tree) :
    eachItem collectAll check index (item :: items) =
      if (check index item).goesOn collectAll then
        (check index item).join ((eachItem collectAll check (index + 1) items).map
          ((check index item).data :: ·))
      else (check index item).map (· :: items) := rfl

theorem passes_join
    {first : Outcome α} {second : Outcome β} {out : β}
    (passed : first.verdict = .ok true) :
    (first.join second).Passes out ↔ second.Passes out := by
  unfold Outcome.Passes
  simp only [Outcome.join, passed]
  cases second.verdict with
  | error e =>
      simp [Except.map]
  | ok last =>
      simp [Except.map]

/-- The verdict of two parts together is a verdict of each. -/
theorem verdict_join
    {first : Outcome α} {second : Outcome β} {passed : Bool}
    (h : (first.join second).verdict = .ok passed) :
    ∃ a b, first.verdict = .ok a ∧ second.verdict = .ok b ∧ passed = (a && b) := by
  simp only [Outcome.join] at h
  cases one : first.verdict with
  | error e =>
      simp [one] at h
  | ok a =>
      cases two : second.verdict with
      | error e =>
          simp [one, two, Except.map] at h
      | ok b =>
          simp only [one, two, Except.map, Except.ok.injEq] at h
          exact ⟨a, b, rfl, rfl, h.symm⟩

theorem verdict_of_join
    {first : Outcome α} {second : Outcome β}
    (passed : (first.join second).verdict = .ok true) :
    first.verdict = .ok true := by
  obtain ⟨a, b, verdict, _, both⟩ := verdict_join passed
  rw [verdict, (Bool.and_eq_true_iff.mp both.symm).1]

/-- The check is passed where the two others are, one after the other. -/
def Sequence (check first second : Check α) : Prop :=
  ∀ data out, (check data).Passes out ↔ ∃ mid, (first data).Passes mid ∧ (second mid).Passes out

theorem sequence_all_cons
    (check : Check α)
    (checks : List (Check α)) :
    Sequence (all collectAll (check :: checks)) check (all collectAll checks) := by
  intro data out
  rw [all_cons]
  constructor
  · split
    · intro passes
      have first := verdict_of_join passes.1
      exact ⟨_, ⟨first, rfl⟩, (passes_join first).mp passes⟩
    · rename_i ends
      intro passes
      simp [Outcome.goesOn, passes.1] at ends
  · rintro ⟨mid, ⟨verdict, rfl⟩, rest⟩
    have goesOn : (check data).goesOn collectAll = true := by
      simp [Outcome.goesOn, verdict]
    rw [if_pos goesOn]
    exact (passes_join verdict).mpr rest

theorem sequence_pair
    (first second : Check α) :
    Sequence (all collectAll [first, second]) first second := by
  intro data out
  rw [sequence_all_cons first [second] data out]
  refine exists_congr fun mid => and_congr_right fun _ => ?_
  rw [sequence_all_cons second [] mid out]
  constructor
  · rintro ⟨last, passes, rest⟩
    rw [passes_pass.mp rest]
    exact passes
  · intro passes
    exact ⟨out, passes, passes_pass.mpr rfl⟩

theorem sequence_whenPassed
    (first second : Check α) :
    Sequence (whenPassed first second) first second := by
  intro data out
  unfold whenPassed
  simp only
  constructor
  · split
    · rename_i verdict
      intro passes
      exact ⟨_, ⟨verdict, rfl⟩, (passes_join verdict).mp passes⟩
    · rename_i notPassed
      intro passes
      exact absurd passes.1 notPassed
  · rintro ⟨mid, ⟨verdict, rfl⟩, rest⟩
    simp only [verdict]
    exact (passes_join verdict).mpr rest

theorem passes_eachItem_nil
    {check : Nat → Check Tree} {index : Nat} {out : List Tree} :
    (eachItem collectAll check index []).Passes out ↔ out = [] := passes_pass

theorem passes_eachItem_cons
    {check : Nat → Check Tree} {index : Nat} {item : Tree} {items out : List Tree} :
    (eachItem collectAll check index (item :: items)).Passes out ↔
      ∃ first rest, (check index item).Passes first ∧
        (eachItem collectAll check (index + 1) items).Passes rest ∧ out = first :: rest := by
  rw [eachItem_cons]
  constructor
  · split
    · intro passes
      have first := verdict_of_join passes.1
      obtain ⟨rest, last, rfl⟩ := passes_map.mp ((passes_join first).mp passes)
      exact ⟨_, rest, ⟨first, rfl⟩, last, rfl⟩
    · rename_i ends
      rintro ⟨verdict, _⟩
      have verdict : (check index item).verdict = .ok true := verdict
      simp [Outcome.goesOn, verdict] at ends
  · rintro ⟨_, rest, ⟨verdict, rfl⟩, last, rfl⟩
    have goesOn : (check index item).goesOn collectAll = true := by
      simp [Outcome.goesOn, verdict]
    rw [if_pos goesOn]
    exact (passes_join verdict).mpr (passes_map.mpr ⟨rest, last, rfl⟩)

/-! ## Moving and repeating -/

section Relations

variable {I : α → Prop} {R S T : α → α → Prop} {check check' first second : Check α}
variable {checks : List (Check α)}

/-- Passing the check keeps the data among those that satisfy `I`, and moves it by `R` only. -/
def Moves (I : α → Prop) (R : α → α → Prop) (check : Check α) : Prop :=
  ∀ data out, I data → (check data).Passes out → I out ∧ R data out

/-- A check that was passed is passed again, without any change, wherever `R` leads from what it
has left. -/
def Repeats (I : α → Prop) (R : α → α → Prop) (check : Check α) : Prop :=
  ∀ data out later, I data → (check data).Passes out → I later → R out later →
    (check later).Passes later

theorem Repeats.congr
    (h : Repeats I R check')
    (same : ∀ data out, (check data).Passes out ↔ (check' data).Passes out) :
    Repeats I R check := by
  intro data out later good passes goodLater moved
  exact (same later later).mpr
    (h data out later good ((same data out).mp passes) goodLater moved)

theorem Repeats.mono
    (h : Repeats I R check)
    (weaker : ∀ a b, I b → S a b → R a b) :
    Repeats I S check := by
  intro data out later good passes goodLater moved
  exact h data out later good passes goodLater (weaker out later goodLater moved)

/-- A check that only looks. -/
def Looks (check : Check α) : Prop := ∀ data, (check data).data = data

theorem Looks.moves
    (h : Looks check)
    (refl : ∀ a, I a → R a a) :
    Moves I R check := by
  rintro data _ good ⟨_, rfl⟩
  rw [h data]
  exact ⟨good, refl data good⟩

/-- A check that only looks is passed again if its verdict stays. -/
theorem Looks.repeats
    (h : Looks check)
    (stays : ∀ data later, I data → I later → R data later → (check data).verdict = .ok true →
      (check later).verdict = .ok true) :
    Repeats I R check := by
  rintro data _ later good ⟨verdict, rfl⟩ goodLater moved
  rw [h data] at moved
  exact ⟨stays data later good goodLater moved verdict, h later⟩

theorem Looks.repeats_eq
    (h : Looks check) :
    Repeats I Eq check := by
  refine h.repeats ?_
  rintro data _ _ _ rfl verdict
  exact verdict

theorem looks_pass :
    Looks (pass : Check α) := fun _ => rfl

theorem looks_violate
    (place : Pointer)
    (breach : Breach) :
    Looks (violate place breach : Check α) :=
  fun _ => rfl

theorem looks_raise
    (e : SchemaError) :
    Looks (raise e : Check α) := fun _ => rfl

theorem moves_pass
    (refl : ∀ a, I a → R a a) :
    Moves I R pass := looks_pass.moves refl

theorem repeats_pass :
    Repeats I R pass := fun _ _ _ _ _ _ _ => passes_pass.mpr rfl

theorem repeats_raise
    {e : SchemaError} :
    Repeats I R (raise e) :=
  fun _ _ _ _ passes _ _ => absurd passes not_passes_raise

theorem repeats_violate :
    Repeats I R (violate place breach) :=
  fun _ _ _ _ passes _ _ => absurd passes not_passes_violate

theorem moves_of_sequence
    (sequence : Sequence check first second)
    (trans : ∀ a b c, R a b → R b c → R a c)
    (h : Moves I R first)
    (k : Moves I R second) :
    Moves I R check := by
  intro data out good passes
  obtain ⟨mid, passesFirst, passesSecond⟩ := (sequence data out).mp passes
  obtain ⟨goodMid, moved⟩ := h data mid good passesFirst
  obtain ⟨goodOut, movedOn⟩ := k mid out goodMid passesSecond
  exact ⟨goodOut, trans data mid out moved movedOn⟩

/-- Both checks repeat if the first one bears what the second one does and what comes later. -/
theorem repeats_of_sequence
    (sequence : Sequence check first second)
    (bears : ∀ a b c, I c → S a b → R b c → T a c)
    (keeps : Moves I (fun _ _ => True) first)
    (moves : Moves I S second)
    (h : Repeats I T first)
    (k : Repeats I R second) :
    Repeats I R check := by
  intro data out later good passes goodLater moved
  obtain ⟨mid, passesFirst, passesSecond⟩ := (sequence data out).mp passes
  obtain ⟨goodMid, _⟩ := keeps data mid good passesFirst
  obtain ⟨_, movedOn⟩ := moves mid out goodMid passesSecond
  refine (sequence later later).mpr ⟨later, ?_, ?_⟩
  · exact h data mid later good passesFirst goodLater (bears mid out later goodLater movedOn moved)
  · exact k mid out later goodMid passesSecond goodLater moved

/-- After a check only looking follows. -/
theorem repeats_before_looks
    (sequence : Sequence check first second)
    (keeps : Moves I (fun _ _ => True) first)
    (looks : Looks second)
    (h : Repeats I R first)
    (k : Repeats I R second) :
    Repeats I R check := by
  refine repeats_of_sequence sequence ?_ keeps (looks.moves fun _ _ => rfl) h k
  rintro _ _ _ _ rfl moved
  exact moved

theorem Moves.keeps
    (h : Moves I R check) :
    Moves I (fun _ _ => True) check :=
  fun data out good passes => ⟨(h data out good passes).1, trivial⟩

theorem moves_all
    (refl : ∀ a, I a → R a a)
    (trans : ∀ a b c, R a b → R b c → R a c)
    (h : ∀ check ∈ checks, Moves I R check) :
    Moves I R (all collectAll checks) := by
  induction checks with
  | nil =>
      exact moves_pass refl
  | cons check checks ih =>
      obtain ⟨first, others⟩ := List.forall_mem_cons.mp h
      exact moves_of_sequence (sequence_all_cons check checks) trans first (ih others)

/-- Checks repeat one by one where none of them goes beyond what the others bear. -/
theorem repeats_all
    (refl : ∀ a, I a → R a a)
    (trans : ∀ a b c, R a b → R b c → R a c)
    (moves : ∀ check ∈ checks, Moves I R check)
    (h : ∀ check ∈ checks, Repeats I R check) :
    Repeats I R (all collectAll checks) := by
  induction checks with
  | nil =>
      exact repeats_pass
  | cons check checks ih =>
      obtain ⟨first, others⟩ := List.forall_mem_cons.mp h
      obtain ⟨movesFirst, movesOthers⟩ := List.forall_mem_cons.mp moves
      exact repeats_of_sequence (sequence_all_cons check checks) (fun a b c _ => trans a b c)
        movesFirst.keeps (moves_all refl trans movesOthers) first (ih movesOthers others)

/-! ## Conditions and keywords -/

theorem looks_demand
    (condition : α → Bool)
    (place : Pointer)
    (breach : α → Breach) :
    Looks fun data => demand (condition data) place (breach data) data := by
  intro data
  cases holds : condition data with
  | true =>
      simp [demand, holds, pass]
  | false =>
      simp [demand, holds, violate]

/-- A condition that stays true is passed again. -/
theorem repeats_demand
    {condition : α → Bool} {breach : α → Breach}
    (stays : ∀ data later, R data later → condition data = true → condition later = true) :
    Repeats I R fun data => demand (condition data) place (breach data) data := by
  intro data out later _ passes _ moved
  obtain ⟨holds, rfl⟩ := passes_demand.mp passes
  exact passes_demand.mpr ⟨stays out later moved holds, rfl⟩

theorem looks_ofKeyword
    {value : Except SchemaError (Option β)} {check : β → Check α}
    (h : ∀ b, Looks (check b)) :
    Looks (ofKeyword value check) := by
  match value with
  | .error e =>
      exact looks_raise e
  | .ok none =>
      exact looks_pass
  | .ok (some b) =>
      exact h b

theorem repeats_ofKeyword
    {value : Except SchemaError (Option β)} {check : β → Check α}
    (h : ∀ b, value = .ok (some b) → Repeats I R (check b)) :
    Repeats I R (ofKeyword value check) := by
  match value with
  | .error e =>
      exact repeats_raise
  | .ok none =>
      exact repeats_pass
  | .ok (some b) =>
      exact h b rfl

theorem looks_all
    (h : ∀ check ∈ checks, Looks check) :
    Looks (all collectAll checks) := by
  induction checks with
  | nil =>
      exact looks_pass
  | cons check checks ih =>
      obtain ⟨first, others⟩ := List.forall_mem_cons.mp h
      intro data
      rw [all_cons]
      split
      · exact (ih others _).trans (first data)
      · exact first data

end Relations

/-! ## Items -/

section Items

variable {R : Tree → Tree → Prop} {check : Nat → Check Tree} {I : Tree → Prop}

theorem repeats_eachItem
    (h : ∀ index, Repeats I R (check index)) :
    ∀ index : Nat, Repeats (fun items => ∀ item ∈ items, I item) (List.Forall₂ R)
      (eachItem collectAll check index) := by
  intro index data
  induction data generalizing index with
  | nil =>
      intro out later _ passes _ moved
      rw [passes_eachItem_nil.mp passes] at moved
      cases moved
      exact passes_eachItem_nil.mpr rfl
  | cons item items ih =>
      intro out later good passes goodLater moved
      obtain ⟨goodItem, goodItems⟩ := List.forall_mem_cons.mp good
      obtain ⟨first, rest, passesFirst, passesRest, rfl⟩ := passes_eachItem_cons.mp passes
      cases moved with
      | cons movedFirst movedRest =>
          obtain ⟨goodFirst, goodRest⟩ := List.forall_mem_cons.mp goodLater
          refine passes_eachItem_cons.mpr ⟨_, _, ?_, ?_, rfl⟩
          · exact h index item first _ goodItem passesFirst goodFirst movedFirst
          · exact ih (index + 1) rest _ goodItems passesRest goodRest movedRest

end Items

end Check
end JsonDoc
