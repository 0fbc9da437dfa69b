import JsonDoc.Proofs.Schema.Meaning
import JsonDoc.Proofs.Schema.Searching
import JsonDoc.Proofs.Tree.Extension

/-!
# Keywords and filled data

How far each keyword moves the data that passes it, and which later data passes it again. A
relation between trees says how data may have changed since: not at all, or by members filled in.
`Lifts` is what both have in common, so that most keywords need only one lemma.
-/

namespace JsonDoc
namespace Schema

open Check JsonDoc.Tree

/-! ## Ways to change -/

/-- Members of an ordered object. -/
def OrderedMembers
    (members : Members Tree) : Prop :=
  (Tree.object members).Ordered

/-- Items of an ordered array. -/
def OrderedItems (items : List Tree) : Prop := ∀ item ∈ items, item.Ordered

/-- A way to change trees, and one to change members, that go together. -/
structure Lifts (R : Tree → Tree → Prop) (M : Members Tree → Members Tree → Prop) : Prop where
  refl : ∀ tree, tree.Ordered → R tree tree
  trans : ∀ a b c, R a b → R b c → R a c
  object : ∀ members tree, R (.object members) tree ↔ ∃ members', tree = .object members' ∧
    M members members'
  array : ∀ items tree, R (.array items) tree ↔ ∃ items', tree = .array items' ∧
    List.Forall₂ R items items'
  scalar : ∀ scalar tree, R scalar tree → scalar.isObject = false → scalar.isArray = false →
    tree = scalar
  replace : ∀ (members : Members Tree) (key : String) (a b : Tree), OrderedMembers members →
    members.get? key = some a → R a b → M members (members.replace key b)
  get? : ∀ (members members' : Members Tree) (key : String) (a : Tree), M members members' →
    members.get? key = some a → ∃ b, members'.get? key = some b ∧ R a b

theorem lifts_eq :
    Lifts Eq Eq where
  refl _ _ := rfl
  trans _ _ _ := Eq.trans
  object := by
    intro members tree
    constructor
    · rintro rfl
      exact ⟨members, rfl, rfl⟩
    · rintro ⟨_, rfl, rfl⟩
      rfl
  array := by
    intro items tree
    rw [List.forall₂_eq_eq_eq]
    constructor
    · rintro rfl
      exact ⟨items, rfl, rfl⟩
    · rintro ⟨_, rfl, rfl⟩
      rfl
  scalar _ _ same _ _ := same.symm
  replace := by
    rintro members key a _ ordered here rfl
    exact (Members.replace_get? ordered.sorted here).symm
  get? := by
    rintro _ members key a rfl here
    exact ⟨a, here, rfl⟩

theorem lifts_extends :
    Lifts Extends MembersExtend where
  refl _ := Extends.refl
  trans _ _ _ := Extends.trans
  object _ _ := extends_object_iff
  array _ _ := extends_array_iff
  scalar := by
    intro scalar tree h notObject notArray
    cases h with
    | null | boolean | number | string =>
        rfl
    | array _ _ =>
        cases notArray
    | object _ _ _ =>
        cases notObject
  replace _ _ _ _ ordered here h := MembersExtend.replace ordered here h
  get? _ _ _ _ h here := h.get? here

namespace Lifts

variable {R : Tree → Tree → Prop} {M : Members Tree → Members Tree → Prop} (lifts : Lifts R M)

include lifts

theorem members_refl
    (members : Members Tree)
    (ordered : OrderedMembers members) :
    M members members := by
  obtain ⟨_, same, h⟩ := (lifts.object members _).mp (lifts.refl _ ordered)
  cases same
  exact h

theorem members_trans
    (a b c : Members Tree)
    (h : M a b)
    (k : M b c) :
    M a c := by
  have first := (lifts.object a (.object b)).mpr ⟨b, rfl, h⟩
  have second := (lifts.object b (.object c)).mpr ⟨c, rfl, k⟩
  obtain ⟨_, same, both⟩ := (lifts.object a _).mp (lifts.trans _ _ _ first second)
  cases same
  exact both

theorem items_refl
    (items : List Tree)
    (ordered : OrderedItems items) :
    List.Forall₂ R items items :=
  List.forall₂_same.mpr fun item mem => lifts.refl item (ordered item mem)

theorem items_trans
    (a b c : List Tree)
    (h : List.Forall₂ R a b)
    (k : List.Forall₂ R b c) :
    List.Forall₂ R a c := by
  have first := (lifts.array a (.array b)).mpr ⟨b, rfl, h⟩
  have second := (lifts.array b (.array c)).mpr ⟨c, rfl, k⟩
  obtain ⟨_, same, both⟩ := (lifts.array a _).mp (lifts.trans _ _ _ first second)
  cases same
  exact both

end Lifts

/-- Walking with a schema moves data by `R`. -/
def WalkMoves (walk : Walk) (R : Tree → Tree → Prop) (schema : Tree) : Prop :=
  ∀ path place, Moves Tree.Ordered R (walk schema path place)

/-- Walking with a schema repeats where `R` leads. -/
def WalkRepeats (walk : Walk) (R : Tree → Tree → Prop) (schema : Tree) : Prop :=
  ∀ path place, Repeats Tree.Ordered R (walk schema path place)

section Keywords

variable {walk : Walk} {rules : Rules} {path place : Pointer} {collectAll : Bool}
variable {R : Tree → Tree → Prop} {M : Members Tree → Members Tree → Prop}

/-! ## Keywords for all kinds -/

theorem looks_count
    {α : Type} {keyword : Keyword} {condition : Nat → α → Bool}
    {breach : Nat → α → Breach} :
    Looks (ofKeyword (rules.count keyword place) fun bound data =>
      demand (condition bound data) path (breach bound data) data) :=
  looks_ofKeyword fun bound => looks_demand (condition bound) path (breach bound)

theorem looks_enumerated
    (value : Tree) :
    Looks (enumerated value path place) := by
  cases value with
  | array options =>
      exact looks_demand (fun node => options.any (·.approxEq node)) path .notEnumerated
  | null | boolean | number | string | object =>
      exact looks_raise _

theorem looks_typed
    (value : Tree) :
    Looks (typed value path place) := by
  unfold typed
  cases Rules.types place value with
  | error e =>
      exact looks_raise e
  | ok names =>
      exact looks_demand (fun node => names.any (Rules.hasType node)) path
        fun node => .wrongType names node.kindName

/-- Filling in members changes no type. -/
theorem hasType_of_extends
    {a b : Tree}
    (h : Extends a b)
    (name : String) :
    Rules.hasType b name = Rules.hasType a name := by
  cases h <;> rfl

theorem repeats_typed
    (value : Tree) :
    Repeats Tree.Ordered Extends (typed value path place) := by
  refine (looks_typed value).repeats ?_
  intro data later _ _ extended verdict
  unfold typed at verdict ⊢
  cases types : Rules.types place value with
  | error e =>
      simp [types, raise] at verdict
  | ok names =>
      have same : names.any (Rules.hasType later) = names.any (Rules.hasType data) := by
        exact congrArg names.any (funext (hasType_of_extends extended))
      simp only [types, same] at verdict ⊢
      cases holds : names.any (Rules.hasType data) with
      | true =>
          rfl
      | false =>
          simp [holds, demand, violate] at verdict

theorem looks_combined
    {combine : List (Check Tree) → Check Tree}
    (keyword : Keyword)
    (h : ∀ checks, Looks (combine checks)) :
    Looks (combined walk rules path place keyword combine) := by
  unfold combined
  cases rules.find? keyword with
  | none =>
      exact looks_pass
  | some value =>
      cases read : Rules.schemas keyword place value with
      | error e =>
          simp only [read]
          exact looks_raise e
      | ok schemas =>
          simp only [read]
          exact h _

theorem data_passesAll
    (checks : List (Check Tree))
    (node : Tree) :
    (passesAll collectAll path checks node).data = (Check.all collectAll checks node).data := by
  unfold passesAll
  simp only
  split <;> rfl

theorem passes_passesAll
    {checks : List (Check Tree)} {node out : Tree} :
    (passesAll collectAll path checks node).Passes out ↔
      (Check.all collectAll checks node).Passes out := by
  unfold passesAll
  simp only
  split
  · rename_i failed
    refine iff_of_false ?_ ?_
    · rintro ⟨verdict, _⟩
      cases failed.symm.trans verdict
    · rintro ⟨verdict, _⟩
      cases failed.symm.trans verdict
  · exact Iff.rfl

/-- The branches of `allOf`. -/
def allOfSchemas (rules : Rules) : List Tree :=
  match rules.find? .allOf with
  | some (.array schemas) => schemas
  | _ => []

/-- The checks of branches, each by the walk of its schema. -/
theorem branches_walk
    (walk : Walk)
    (keyword : Keyword)
    (schemas : List Tree)
    (path place : Pointer) :
    List.Forall₂ (fun check schema => ∃ place', check = walk schema path place')
      (branches walk keyword schemas path place) schemas := by
  unfold branches
  refine List.forall₂_iff_get.mpr ⟨by simp, ?_⟩
  intro i _ _
  exact ⟨(place.child keyword.name).item i, by simp⟩

/-- The check of `allOf` is that of its branches in a row, unless the schema is malformed. -/
theorem allOf_cases
    (collectAll : Bool)
    (walk : Walk)
    (rules : Rules)
    (path place : Pointer) :
    (∃ checks, List.Forall₂ (fun check schema => ∃ place', check = walk schema path place')
        checks (allOfSchemas rules) ∧
      combined walk rules path place .allOf (passesAll collectAll path) =
        passesAll collectAll path checks) ∨
      ∃ e, combined walk rules path place .allOf (passesAll collectAll path) = raise e := by
  unfold combined allOfSchemas
  cases rules.find? .allOf with
  | none =>
      exact Or.inl ⟨[], .nil, rfl⟩
  | some value =>
      cases value with
      | array schemas =>
          exact Or.inl ⟨_, branches_walk walk .allOf schemas path place, rfl⟩
      | object members =>
          exact Or.inr ⟨_, rfl⟩
      | null | boolean | number | string =>
          exact Or.inr ⟨_, rfl⟩

theorem forall_of_walk
    {Q : Check Tree → Prop} {schemas : List Tree} {checks : List (Check Tree)}
    (walks : List.Forall₂ (fun check schema => ∃ place', check = walk schema path place')
      checks schemas)
    (h : ∀ schema ∈ schemas, ∀ place, Q (walk schema path place)) :
    ∀ check ∈ checks, Q check := by
  induction walks with
  | nil =>
      simp
  | cons first _ ih =>
      obtain ⟨here, others⟩ := List.forall_mem_cons.mp h
      obtain ⟨place', rfl⟩ := first
      exact List.forall_mem_cons.mpr ⟨here place', ih others⟩

theorem repeats_allOf
    (lifts : Lifts R M)
    (moves : ∀ schema ∈ allOfSchemas rules, WalkMoves walk R schema)
    (h : ∀ schema ∈ allOfSchemas rules, WalkRepeats walk R schema) :
    Repeats Tree.Ordered R
      (combined walk rules path place .allOf (passesAll collectAll path)) := by
  rcases allOf_cases collectAll walk rules path place with ⟨checks, walks, eq⟩ | ⟨e, eq⟩
  · rw [eq]
    refine Repeats.congr ?_ fun _ _ => passes_passesAll
    exact repeats_all lifts.refl lifts.trans
      (forall_of_walk walks fun schema mem => moves schema mem path)
      (forall_of_walk walks fun schema mem => h schema mem path)
  · rw [eq]
    exact repeats_raise

/-- Branches repeat where each one either bears what may be filled in, or comes after all branches
that fill in something. -/
theorem repeats_allOf_eq
    (moves : ∀ schema ∈ allOfSchemas rules, WalkMoves walk Extends schema)
    (h : ∀ schema ∈ allOfSchemas rules, WalkRepeats walk Eq schema)
    (order : (allOfSchemas rules).Pairwise fun a b =>
      WalkMoves walk Eq b ∨ WalkRepeats walk Extends a) :
    Repeats Tree.Ordered Eq
      (combined walk rules path place .allOf (passesAll collectAll path)) := by
  rcases allOf_cases collectAll walk rules path place with ⟨checks, walks, eq⟩ | ⟨e, eq⟩
  · rw [eq]
    refine Repeats.congr ?_ fun _ _ => passes_passesAll
    clear eq
    generalize allOfSchemas rules = schemas at moves h order walks
    induction walks with
    | nil =>
        exact repeats_pass
    | @cons check schema checks schemas first others ih =>
        obtain ⟨place', rfl⟩ := first
        obtain ⟨hereMoves, othersMove⟩ := List.forall_mem_cons.mp moves
        obtain ⟨here, othersRepeat⟩ := List.forall_mem_cons.mp h
        obtain ⟨before, othersOrder⟩ := List.pairwise_cons.mp order
        have rest := ih othersMove othersRepeat othersOrder
        by_cases still : ∀ b ∈ schemas, WalkMoves walk Eq b
        · refine repeats_of_sequence (sequence_all_cons _ checks) ?_ (hereMoves path place').keeps
            (moves_all lifts_eq.refl lifts_eq.trans
              (forall_of_walk others fun b mem => still b mem path))
            (here path place') rest
          exact fun _ _ _ _ => Eq.trans
        · obtain ⟨b, mem, fills⟩ : ∃ b ∈ schemas, ¬ WalkMoves walk Eq b := by
            simpa using still
          have bears := (before b mem).resolve_left fills
          refine repeats_of_sequence (sequence_all_cons _ checks) ?_ (hereMoves path place').keeps
            (moves_all lifts_extends.refl lifts_extends.trans
              (forall_of_walk others fun b mem => othersMove b mem path))
            (bears path place') rest
          rintro _ _ _ _ extended rfl
          exact extended
  · rw [eq]
    exact repeats_raise

end Keywords

end Schema
end JsonDoc
