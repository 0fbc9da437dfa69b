import JsonDoc.Proofs.Schema.Steady
import Mathlib.Data.List.Perm.Basic

/-!
# Checks that concur

Two checks concur if they agree wherever neither runs into an error: they come to the same verdict,
and leave the same data if they are passed. What they leave when they fail, and where they raise
errors, may differ.

Checks that are put together in the same way concur if their parts do. Checks in a row also concur
with the same checks in another order, if any two of them can change places: `passes_of_perm`.
-/

namespace JsonDoc
namespace Check

section Concurs

variable {α β : Type} {I : α → Prop} {check check' first first' second second' : Check α}
variable {checks checks' : List (Check α)} {collectAll : Bool}

/-- Where neither check raises an error, both come to the same. -/
def Concurs (I : α → Prop) (check check' : Check α) : Prop :=
  ∀ data, I data → ∀ passed passed', (check data).verdict = .ok passed →
    (check' data).verdict = .ok passed' →
    passed = passed' ∧
      (passed = true → (check' data).data = (check data).data ∧ I (check data).data)

theorem concurs_raise
    {e : SchemaError} :
    Concurs I (raise e) check :=
  fun _ _ _ _ verdict _ => by cases verdict

theorem Looks.concurs
    (looks : Looks check) :
    Concurs I check check := by
  intro data good passed passed' verdict verdict'
  cases verdict.symm.trans verdict'
  refine ⟨rfl, fun _ => ⟨rfl, ?_⟩⟩
  rwa [looks data]

theorem Concurs.symm
    (h : Concurs I check check') :
    Concurs I check' check := by
  intro data good passed passed' verdict verdict'
  obtain ⟨rfl, left⟩ := h data good passed' passed verdict' verdict
  refine ⟨rfl, fun holds => ?_⟩
  obtain ⟨same, goodLeft⟩ := left holds
  rw [same]
  exact ⟨rfl, goodLeft⟩

theorem concurs_pass :
    Concurs I pass pass := looks_pass.concurs

/-- Checks for what is read under a keyword. -/
theorem concurs_ofKeyword
    {value value' : Except SchemaError (Option β)} {check check' : β → Check α}
    (same : ∀ b b', value = .ok b → value' = .ok b' → b = b')
    (h : ∀ b, Concurs I (check b) (check' b)) :
    Concurs I (ofKeyword value check) (ofKeyword value' check') := by
  match value, value' with
  | .error e, _ =>
      exact concurs_raise
  | .ok b, .error e =>
      exact fun _ _ _ _ _ verdict' => by cases verdict'
  | .ok b, .ok b' =>
      obtain rfl := same b b' rfl rfl
      cases b with
      | none =>
          exact concurs_pass
      | some b =>
          exact h b

/-- Checks that first look at the data. -/
theorem concurs_ite
    {condition : α → Prop} [DecidablePred condition]
    (h : Concurs I first first')
    (k : Concurs I second second') :
    Concurs I (fun data => if condition data then first data else second data)
      fun data => if condition data then first' data else second' data := by
  intro data good
  by_cases holds : condition data
  · simp only [if_pos holds]
    exact h data good
  · simp only [if_neg holds]
    exact k data good

/-- Checks of one part of the data. -/
theorem concurs_part
    {J : β → Prop} {check check' : Check β} {part : α → β} {put : α → β → α}
    (h : Concurs J check check')
    (goodPart : ∀ data, I data → J (part data))
    (goodPut : ∀ data b, I data → J b → I (put data b)) :
    Concurs I (fun data => (check (part data)).map (put data))
      fun data => (check' (part data)).map (put data) := by
  intro data good passed passed' verdict verdict'
  obtain ⟨rfl, left⟩ := h (part data) (goodPart data good) passed passed' verdict verdict'
  refine ⟨rfl, fun holds => ?_⟩
  obtain ⟨same, goodLeft⟩ := left holds
  exact ⟨congrArg (put data) same, goodPut data _ good goodLeft⟩

/-- A check that comes to a verdict by a first check, if that fails, and else by a second one on
what the first one has left. -/
def InTurn (check first second : Check α) : Prop :=
  ∀ data passed, (check data).verdict = .ok passed →
    ((first data).verdict = .ok false ∧ passed = false) ∨
      ((first data).verdict = .ok true ∧ (second (first data).data).verdict = .ok passed ∧
        (check data).data = (second (first data).data).data)

theorem inTurn_all_cons :
    InTurn (all collectAll (first :: checks)) first (all collectAll checks) := by
  intro data passed verdict
  by_cases goesOn : (first data).goesOn collectAll = true
  · rw [all_cons_of_goesOn goesOn] at verdict ⊢
    obtain ⟨a, b, here, later, rfl⟩ := verdict_join verdict
    cases a with
    | false =>
        exact Or.inl ⟨here, rfl⟩
    | true =>
        exact Or.inr ⟨here, later, rfl⟩
  · rw [all_cons_of_stops goesOn] at verdict
    cases passed with
    | false =>
        exact Or.inl ⟨verdict, rfl⟩
    | true =>
        simp [Outcome.goesOn, verdict] at goesOn

theorem inTurn_whenPassed :
    InTurn (whenPassed first second) first second := by
  intro data passed verdict
  by_cases here : (first data).verdict = .ok true
  · rw [whenPassed_of_passed here] at verdict ⊢
    obtain ⟨a, b, here', later, rfl⟩ := verdict_join verdict
    cases here.symm.trans here'
    exact Or.inr ⟨here, later, rfl⟩
  · rw [whenPassed_of_not here] at verdict
    cases passed with
    | false =>
        exact Or.inl ⟨verdict, rfl⟩
    | true =>
        exact absurd verdict here

theorem concurs_inTurn
    (turn : InTurn check first second)
    (turn' : InTurn check' first' second')
    (h : Concurs I first first')
    (k : Concurs I second second') :
    Concurs I check check' := by
  intro data good passed passed' verdict verdict'
  rcases turn data passed verdict with ⟨here, rfl⟩ | ⟨here, later, left⟩
  · rcases turn' data passed' verdict' with ⟨_, rfl⟩ | ⟨here', _, _⟩
    · exact ⟨rfl, nofun⟩
    · cases (h data good _ _ here here').1
  · rcases turn' data passed' verdict' with ⟨here', _⟩ | ⟨here', later', left'⟩
    · cases (h data good _ _ here here').1
    · obtain ⟨same, goodLeft⟩ := (h data good _ _ here here').2 rfl
      rw [same] at later' left'
      rw [left, left']
      exact k _ goodLeft _ _ later later'

theorem concurs_all
    (h : List.Forall₂ (Concurs I) checks checks') :
    Concurs I (all collectAll checks) (all collectAll checks') := by
  induction h with
  | nil =>
      exact concurs_pass
  | cons here _ ih =>
      exact concurs_inTurn inTurn_all_cons inTurn_all_cons here ih

theorem concurs_whenPassed
    (h : Concurs I first first')
    (k : Concurs I second second') :
    Concurs I (whenPassed first second) (whenPassed first' second') :=
  concurs_inTurn inTurn_whenPassed inTurn_whenPassed h k

/-- An item fails, or it is as it was left and the others decide. -/
theorem eachItem_cons_cases
    {check : Nat → Check Tree} {index : Nat} {item : Tree} {items : List Tree}
    {passed : Bool}
    (verdict : (eachItem collectAll check index (item :: items)).verdict = .ok passed) :
    ((check index item).verdict = .ok false ∧ passed = false) ∨
      ((check index item).verdict = .ok true ∧
        (eachItem collectAll check (index + 1) items).verdict = .ok passed ∧
        (eachItem collectAll check index (item :: items)).data =
          (check index item).data :: (eachItem collectAll check (index + 1) items).data) := by
  by_cases goesOn : (check index item).goesOn collectAll = true
  · rw [eachItem_cons_of_goesOn goesOn] at verdict ⊢
    obtain ⟨a, b, here, later, rfl⟩ := verdict_join verdict
    cases a with
    | false =>
        exact Or.inl ⟨here, rfl⟩
    | true =>
        exact Or.inr ⟨here, later, rfl⟩
  · rw [eachItem_cons_of_stops goesOn] at verdict
    have here : (check index item).verdict = .ok passed := verdict
    cases passed with
    | false =>
        exact Or.inl ⟨here, rfl⟩
    | true =>
        simp [Outcome.goesOn, here] at goesOn

theorem concurs_eachItem
    {I : Tree → Prop} {check check' : Nat → Check Tree}
    (h : ∀ index, Concurs I (check index) (check' index)) :
    ∀ index, Concurs (fun items => ∀ item ∈ items, I item) (eachItem collectAll check index)
      (eachItem collectAll check' index) := by
  intro index items
  induction items generalizing index with
  | nil =>
      rintro good _ _ ⟨⟩ ⟨⟩
      exact ⟨rfl, fun _ => ⟨rfl, good⟩⟩
  | cons item items ih =>
      intro good passed passed' verdict verdict'
      obtain ⟨goodItem, goodItems⟩ := List.forall_mem_cons.mp good
      rcases eachItem_cons_cases verdict with ⟨here, rfl⟩ | ⟨here, later, left⟩
      · rcases eachItem_cons_cases verdict' with ⟨_, rfl⟩ | ⟨here', _, _⟩
        · exact ⟨rfl, nofun⟩
        · cases (h index item goodItem _ _ here here').1
      · rcases eachItem_cons_cases verdict' with ⟨here', _⟩ | ⟨here', later', left'⟩
        · cases (h index item goodItem _ _ here here').1
        · obtain ⟨same, goodLeft⟩ := (h index item goodItem _ _ here here').2 rfl
          obtain ⟨samePassed, rest⟩ := ih (index + 1) goodItems _ _ later later'
          refine ⟨samePassed, fun holds => ?_⟩
          obtain ⟨sameRest, goodRest⟩ := rest holds
          rw [left, left', same, sameRest]
          exact ⟨rfl, List.forall_mem_cons.mpr ⟨goodLeft, goodRest⟩⟩

/-! ## Branches that are tried out -/

/-- The same branch is the first one to pass. -/
theorem firstPassed_concurs
    (h : List.Forall₂ (Concurs I) checks checks')
    {data : α}
    (good : I data) :
    ∀ index found found', (firstPassed data index checks).1 = .ok found →
      (firstPassed data index checks').1 = .ok found' → found = found' := by
  induction h with
  | nil =>
      rintro index _ _ ⟨⟩ ⟨⟩
      rfl
  | @cons check check' checks checks' here _ ih =>
      intro index found found' first first'
      simp only [firstPassed, probe] at first first'
      cases verdict : (check data).verdict with
      | error e =>
          simp [verdict] at first
      | ok passed =>
          cases verdict' : (check' data).verdict with
          | error e =>
              simp [verdict'] at first'
          | ok passed' =>
              obtain rfl := (here data good _ _ verdict verdict').1
              rw [verdict] at first
              rw [verdict'] at first'
              cases passed with
              | true =>
                  cases first
                  cases first'
                  rfl
              | false =>
                  exact ih (index + 1) _ _ first first'

/-- As many branches pass. -/
theorem countPassed_concurs
    (h : List.Forall₂ (Concurs I) checks checks')
    {data : α}
    (good : I data) :
    ∀ count total total', (countPassed data count checks).1 = .ok total →
      (countPassed data count checks').1 = .ok total' → total = total' := by
  induction h with
  | nil =>
      rintro count _ _ ⟨⟩ ⟨⟩
      rfl
  | @cons check check' checks checks' here _ ih =>
      intro count total total' found found'
      unfold countPassed at found found'
      split at found
      · rename_i enough
        rw [if_pos enough] at found'
        cases found
        cases found'
        rfl
      · rename_i more
        rw [if_neg more] at found'
        simp only [probe] at found found'
        cases verdict : (check data).verdict with
        | error e =>
            simp [verdict] at found
        | ok passed =>
            cases verdict' : (check' data).verdict with
            | error e =>
                simp [verdict'] at found'
            | ok passed' =>
                obtain rfl := (here data good _ _ verdict verdict').1
                rw [verdict] at found
                rw [verdict'] at found'
                exact ih _ _ _ found found'

/-! ## Other orders -/

/-- Two checks can change places: if the second one is passed after the first, so is the first one
after the second, with the same data at the end. -/
def Exchanges (I : α → Prop) (first second : Check α) : Prop :=
  ∀ data mid out, I data → (first data).Passes mid → (second mid).Passes out →
    ∃ mid', (second data).Passes mid' ∧ (first mid').Passes out

/-- Checks any two of which can change places are passed in any order. -/
theorem passes_of_perm
    (perm : checks.Perm checks')
    (keeps : ∀ check ∈ checks, Moves I (fun _ _ => True) check)
    (exchange : checks.Pairwise fun first second =>
      Exchanges I first second ∧ Exchanges I second first)
    {data out : α}
    (good : I data)
    (passes : (all collectAll checks data).Passes out) :
    (all collectAll checks' data).Passes out := by
  induction perm generalizing data with
  | nil =>
      exact passes
  | @cons check checks checks' _ ih =>
      obtain ⟨keepsFirst, keepsOthers⟩ := List.forall_mem_cons.mp keeps
      obtain ⟨mid, first, others⟩ := (sequence_all_cons _ _ _ _).mp passes
      obtain ⟨goodMid, _⟩ := keepsFirst data mid good first
      refine (sequence_all_cons _ _ _ _).mpr ⟨mid, first, ?_⟩
      exact ih keepsOthers (List.pairwise_cons.mp exchange).2 goodMid others
  | @swap second first checks =>
      obtain ⟨mid, passesFirst, rest⟩ := (sequence_all_cons _ _ _ _).mp passes
      obtain ⟨mid', passesSecond, others⟩ := (sequence_all_cons _ _ _ _).mp rest
      have exchanges := ((List.pairwise_cons.mp exchange).1 second List.mem_cons_self).1
      obtain ⟨early, passesSecond', passesFirst'⟩ :=
        exchanges data mid mid' good passesFirst passesSecond
      refine (sequence_all_cons _ _ _ _).mpr ⟨early, passesSecond', ?_⟩
      exact (sequence_all_cons _ _ _ _).mpr ⟨mid', passesFirst', others⟩
  | @trans _ middle _ perm _ ih ih' =>
      refine ih' ?_ ?_ good (ih keeps exchange good passes)
      · exact fun check mem => keeps check (perm.mem_iff.mpr mem)
      · exact (perm.pairwise_iff fun h => h.symm).mp exchange

theorem Concurs.passes
    (h : Concurs I check check')
    {data out : α}
    (good : I data)
    {passed : Bool}
    (passes : (check data).Passes out)
    (verdict : (check' data).verdict = .ok passed) :
    passed = true ∧ (check' data).data = out ∧ I out := by
  obtain ⟨first, rfl⟩ := passes
  obtain ⟨rfl, left⟩ := h data good _ _ first verdict
  exact ⟨rfl, left rfl⟩

/-- Checks any two of which can change places concur with the same checks in another order. -/
theorem concurs_all_of_perm
    {permuted : List (Check α)}
    (perm : checks.Perm permuted)
    (h : List.Forall₂ (Concurs I) permuted checks')
    (keeps : ∀ check ∈ checks, Moves I (fun _ _ => True) check)
    (keeps' : ∀ check ∈ checks', Moves I (fun _ _ => True) check)
    (exchange : checks.Pairwise fun first second =>
      Exchanges I first second ∧ Exchanges I second first)
    (exchange' : checks'.Pairwise fun first second =>
      Exchanges I first second ∧ Exchanges I second first) :
    Concurs I (all collectAll checks) (all collectAll checks') := by
  intro data good passed passed' verdict verdict'
  cases passed with
  | true =>
      have passes := passes_of_perm perm keeps exchange good ⟨verdict, rfl⟩
      obtain ⟨rfl, same, goodOut⟩ := (concurs_all h).passes good passes verdict'
      exact ⟨rfl, fun _ => ⟨same, goodOut⟩⟩
  | false =>
      cases passed' with
      | false =>
          exact ⟨rfl, nofun⟩
      | true =>
          -- the other checks are passed in the order of these ones, which then cannot fail
          obtain ⟨back, each, perm'⟩ := List.perm_comp_forall₂ perm h
          have each' : List.Forall₂ (Concurs I) back checks := each.flip.imp fun _ _ => Concurs.symm
          have passes := passes_of_perm perm'.symm keeps' exchange' good ⟨verdict', rfl⟩
          cases ((concurs_all each').passes good passes verdict).1

end Concurs

end Check
end JsonDoc
