import JsonDoc.Proofs.Schema.Leaving

/-!
# Steady checks

A check is steady if, given the data as it was left, it comes to the same once more and leaves the
data so. In between, the data may have changed by a relation that the check bears. Of checks in a
row each one must bear what the later ones do: `steady_all_cons`.
-/

namespace JsonDoc

/-- The outcome comes to the same as another one, and leaves the data that was given. -/
structure Outcome.Echoes {α : Type} (again first : Outcome α) (given : α) : Prop where
  verdict : again.verdict = first.verdict
  violations : again.violations = first.violations
  data : again.data = given

namespace Outcome.Echoes

variable {α β : Type} {again first : Outcome α} {again' first' : Outcome β} {given : α} {given' : β}

theorem goesOn
    {collectAll : Bool}
    (h : again.Echoes first given) :
    again.goesOn collectAll = first.goesOn collectAll := by
  simp only [Outcome.goesOn, h.verdict]

theorem join
    (h : again.Echoes first given)
    (k : again'.Echoes first' given') :
    (again.join again').Echoes (first.join first') given' where
  verdict := by simp only [Outcome.join, h.verdict, k.verdict]
  violations := by simp only [Outcome.join, h.violations, k.violations]
  data := k.data

/-- Echoes of parts are echoes of the whole. -/
theorem map
    {f : α → β}
    (h : again.Echoes first given) :
    (again.map f).Echoes (first.map f) (f given) where
  verdict := h.verdict
  violations := h.violations
  data := congrArg f h.data

end Outcome.Echoes

namespace Check

section Steady

variable {α : Type} {I : α → Prop} {R S T : α → α → Prop} {check first second : Check α}
variable {checks : List (Check α)} {collectAll : Bool}

/-- Wherever `R` leads from what the check has left, whatever it came to, it comes to the same and
changes nothing. -/
def Steady (I : α → Prop) (R : α → α → Prop) (check : Check α) : Prop :=
  ∀ data later, I data → I later → R (check data).data later →
    (check later).Echoes (check data) later

/-- A check that only looks is steady where nothing changes. -/
theorem Looks.steady
    (looks : Looks check) :
    Steady I Eq check := by
  rintro data _ _ _ rfl
  rw [looks data]
  exact ⟨rfl, rfl, looks data⟩

theorem all_cons_of_goesOn
    {data : α}
    (goesOn : (first data).goesOn collectAll = true) :
    all collectAll (first :: checks) data =
      (first data).join (all collectAll checks (first data).data) := by
  rw [all_cons, if_pos goesOn]

theorem all_cons_of_stops
    {data : α}
    (stops : ¬ (first data).goesOn collectAll = true) :
    all collectAll (first :: checks) data = first data := by
  rw [all_cons, if_neg stops]

/-- Checks in a row are steady if the first one bears what the others do and what comes later. -/
theorem steady_all_cons
    (short : ∀ a b, R a b → T a b)
    (bears : ∀ a b c, S a b → R b c → T a c)
    (keeps : Leaves I (fun _ _ => True) first)
    (h : Steady I T first)
    (leaves : Leaves I S (all collectAll checks))
    (k : Steady I R (all collectAll checks)) :
    Steady I R (all collectAll (first :: checks)) := by
  intro data later good goodLater moved
  obtain ⟨goodMid, _⟩ := keeps data good
  by_cases goesOn : (first data).goesOn collectAll = true
  · rw [all_cons_of_goesOn goesOn] at moved ⊢
    have again := h data later good goodLater (bears _ _ _ (leaves _ goodMid).2 moved)
    rw [all_cons_of_goesOn (again.goesOn.trans goesOn), again.data]
    exact again.join (k _ later goodMid goodLater moved)
  · rw [all_cons_of_stops goesOn] at moved ⊢
    have again := h data later good goodLater (short _ _ moved)
    rw [all_cons_of_stops (by rwa [again.goesOn])]
    exact again

theorem Leaves.keeps
    (h : Leaves I R check) :
    Leaves I (fun _ _ => True) check :=
  fun data good => ⟨(h data good).1, trivial⟩

/-- After a steady check only looking follows. -/
theorem steady_before_looks
    (keeps : Leaves I (fun _ _ => True) first)
    (h : Steady I Eq first)
    (looks : ∀ check ∈ checks, Looks check) :
    Steady I Eq (all collectAll (first :: checks)) := by
  have rest : Looks (all collectAll checks) := looks_all looks
  exact steady_all_cons (fun _ _ => id) (fun _ _ _ => Eq.trans) keeps h
    (rest.leaves fun _ _ => rfl) rest.steady

theorem steady_pass :
    Steady I R (pass : Check α) := fun _ _ _ _ _ => ⟨rfl, rfl, rfl⟩

/-- Checks that only look are steady one by one. -/
theorem steady_all_of_looks
    (looks : ∀ check ∈ checks, Looks check)
    (h : ∀ check ∈ checks, Steady I R check) :
    Steady I R (all collectAll checks) := by
  induction checks with
  | nil =>
      exact steady_pass
  | cons check checks ih =>
      obtain ⟨looksFirst, looksOthers⟩ := List.forall_mem_cons.mp looks
      obtain ⟨first, others⟩ := List.forall_mem_cons.mp h
      refine steady_all_cons (fun _ _ => id) ?_ (looksFirst.leaves fun _ _ => trivial) first
        ((looks_all looksOthers).leaves fun _ _ => rfl) (ih looksOthers others)
      rintro _ _ _ rfl moved
      exact moved

theorem whenPassed_of_passed
    {data : α}
    (passed : (first data).verdict = .ok true) :
    whenPassed first second data = (first data).join (second (first data).data) := by
  simp only [whenPassed, passed]

theorem whenPassed_of_not
    {data : α}
    (failed : (first data).verdict ≠ .ok true) :
    whenPassed first second data = first data := by
  simp only [whenPassed]

/-- A check that only looks may come first if it bears what follows it. -/
theorem steady_whenPassed
    (looks : Looks first)
    (h : Steady I T first)
    (leaves : Leaves I T second)
    (k : Steady I Eq second) :
    Steady I Eq (whenPassed first second) := by
  rintro data _ good goodLater rfl
  by_cases passed : (first data).verdict = .ok true
  · rw [whenPassed_of_passed passed, looks data] at goodLater ⊢
    have again := h data (second data).data good goodLater
      (by rw [looks data]; exact (leaves data good).2)
    have join : ((first data).join (second data)).data = (second data).data := rfl
    rw [join, whenPassed_of_passed (again.verdict.trans passed), again.data]
    exact again.join (k data _ good goodLater rfl)
  · rw [whenPassed_of_not passed, looks data] at goodLater ⊢
    rw [whenPassed_of_not passed]
    exact ⟨rfl, rfl, looks data⟩

theorem eachItem_cons_of_goesOn
    {check : Nat → Check Tree} {index : Nat} {item : Tree} {items : List Tree}
    (goesOn : (check index item).goesOn collectAll = true) :
    eachItem collectAll check index (item :: items) =
      (check index item).join ((eachItem collectAll check (index + 1) items).map
        ((check index item).data :: ·)) := by
  rw [eachItem_cons, if_pos goesOn]

theorem eachItem_cons_of_stops
    {check : Nat → Check Tree} {index : Nat} {item : Tree} {items : List Tree}
    (stops : ¬ (check index item).goesOn collectAll = true) :
    eachItem collectAll check index (item :: items) = (check index item).map (· :: items) := by
  rw [eachItem_cons, if_neg stops]

theorem steady_eachItem
    {I : Tree → Prop} {check : Nat → Check Tree}
    (h : ∀ index, Steady I Eq (check index)) :
    ∀ index : Nat, Steady (fun items => ∀ item ∈ items, I item) Eq
      (eachItem collectAll check index) := by
  intro index items
  induction items generalizing index with
  | nil =>
      rintro _ _ _ rfl
      exact ⟨rfl, rfl, rfl⟩
  | cons item items ih =>
      intro later good goodLater moved
      obtain ⟨goodItem, goodItems⟩ := List.forall_mem_cons.mp good
      let left := (check index item).data
      by_cases goesOn : (check index item).goesOn collectAll = true
      · rw [eachItem_cons_of_goesOn goesOn] at moved ⊢
        obtain rfl : left :: (eachItem collectAll check (index + 1) items).data = later := moved
        obtain ⟨goodFirst, goodRest⟩ := List.forall_mem_cons.mp goodLater
        have again := h index item left goodItem goodFirst rfl
        have rest := ih (index + 1) _ goodItems goodRest rfl
        rw [eachItem_cons_of_goesOn (again.goesOn.trans goesOn), again.data]
        exact again.join rest.map
      · rw [eachItem_cons_of_stops goesOn] at moved ⊢
        obtain rfl : left :: items = later := moved
        obtain ⟨goodFirst, _⟩ := List.forall_mem_cons.mp goodLater
        have again := h index item left goodItem goodFirst rfl
        rw [eachItem_cons_of_stops (by rwa [again.goesOn])]
        exact again.map (f := (· :: items))

theorem length_eachItem
    (collectAll : Bool)
    (check : Nat → Check Tree)
    (items : List Tree) :
    ∀ index, (eachItem collectAll check index items).data.length = items.length := by
  induction items with
  | nil =>
      exact fun _ => rfl
  | cons item items ih =>
      intro index
      rw [eachItem_cons]
      split
      · exact congrArg (· + 1) (ih (index + 1))
      · rfl

end Steady

end Check

end JsonDoc
