import JsonDoc.Proofs.Schema.Leaving
import JsonDoc.Schema.Validator

/-!
# Defaults only extend a document

Whatever checking comes to, the document afterwards is the one before with members put in
(`checkAndFill_extends`). A member that was put in has grown from the default that some schema
applied to its object has for it, and what was put in below it has grown in the same way.

Which schemas are applied to a node is its scope: those that its place in the document brings, and
the branches of their `allOf`. The branches of the other combinations are only tried out.
-/

namespace JsonDoc
namespace Schema

open Check JsonDoc.Tree

variable {engine : Pattern.Engine}

/-! ## Scopes -/

/-- The schemas that are applied to a node. -/
abbrev Scope := Tree → Prop

namespace Scope

/-- Some schemas and, from there, the branches of `allOf`. -/
inductive Of (given : Tree → Prop) : Scope
  | given {schema : Tree} : given schema → Of given schema
  | branch {rules : Rules} {schema : Tree} :
      Of given (.object rules) → schema ∈ allOfSchemas rules → Of given schema

/-- What is applied to a document. -/
def root (schema : Tree) : Scope := Of (· = schema)

/-- What is applied to the member under a key. -/
def member (scope : Scope) (key : String) : Scope :=
  Of fun schema => ∃ rules, scope (.object rules) ∧ (key, schema) ∈ propertySchemas rules

/-- What is applied to the item at an index. -/
def item (scope : Scope) (index : Nat) : Scope :=
  Of fun schema => ∃ rules, scope (.object rules) ∧ itemSchema? rules index = some schema

/-- With a schema the branches of its `allOf` are applied. -/
def Closed (scope : Scope) : Prop :=
  ∀ rules, scope (.object rules) → ∀ schema ∈ allOfSchemas rules, scope schema

theorem closed_of
    (given : Tree → Prop) :
    Closed (Of given) :=
  fun _ here _ mem => .branch here mem

end Scope

/-! ## Filled trees -/

/-- What a member has grown from: from itself, or from the default that a property of a schema
applied to the object has for a missing member. -/
def Origin
    (scope : Scope)
    (members : Members Tree)
    (key : String)
    (value : Tree) : Prop :=
  members.get? key = some value ∨
    (members.contains key = false ∧ ∃ rules schema, scope (.object rules) ∧
      (key, schema) ∈ propertySchemas rules ∧ schema.get? Keyword.default.name = some value)

/-- The second tree is the first one with defaults put in, at any depth, by the schemas applied to
each node. The function `origin` says what each member has grown from. -/
inductive Filled : Scope → Tree → Tree → Prop
  | null {scope : Scope} : Filled scope .null .null
  | boolean {scope : Scope} (value : Bool) : Filled scope (.boolean value) (.boolean value)
  | number {scope : Scope} (value : Binary64) : Filled scope (.number value) (.number value)
  | string {scope : Scope} (content : String) : Filled scope (.string content) (.string content)
  | array {scope : Scope} {items items' : List Tree} :
      items.length = items'.length →
      (∀ (i : Nat) (a b : Tree), items[i]? = some a → items'[i]? = some b →
        Filled (scope.item i) a b) →
      Filled scope (.array items) (.array items')
  | object {scope : Scope} {members members' : Members Tree} (origin : String → Tree) :
      (∀ key, members.contains key = true → members'.contains key = true) →
      (∀ (key : String) (b : Tree), members'.get? key = some b →
        Origin scope members key (origin key)) →
      (∀ (key : String) (b : Tree), members'.get? key = some b →
        Filled (scope.member key) (origin key) b) →
      Filled scope (.object members) (.object members')

section Filled

variable {scope : Scope} {members members' : Members Tree} {key : String} {value tree : Tree}

/-- Objects are filled member by member. -/
theorem filled_object_iff :
    Filled scope (.object members) tree ↔ ∃ members' : Members Tree, tree = .object members' ∧
      (∀ key, members.contains key = true → members'.contains key = true) ∧
      ∀ (key : String) (b : Tree), members'.get? key = some b →
        ∃ a, Origin scope members key a ∧ Filled (scope.member key) a b := by
  constructor
  · intro h
    cases h with
    | @object _ _ members' origin kept isOrigin filled =>
        exact ⟨members', rfl, kept, fun key b here =>
          ⟨origin key, isOrigin key b here, filled key b here⟩⟩
  · rintro ⟨members', rfl, kept, each⟩
    have exists_origin (key : String) : ∃ a, ∀ b, members'.get? key = some b →
        Origin scope members key a ∧ Filled (scope.member key) a b := by
      cases here : members'.get? key with
      | none =>
          exact ⟨.null, nofun⟩
      | some b =>
          obtain ⟨a, grown⟩ := each key b here
          refine ⟨a, ?_⟩
          rintro _ ⟨⟩
          exact grown
    obtain ⟨origin, grown⟩ := Classical.skolem.mp exists_origin
    exact .object origin kept (fun key b here => (grown key b here).1)
      fun key b here => (grown key b here).2

theorem Filled.refl
    (ordered : tree.Ordered)
    (scope : Scope) :
    Filled scope tree tree := by
  induction ordered generalizing scope with
  | null =>
      exact .null
  | boolean value =>
      exact .boolean value
  | number value =>
      exact .number value
  | string content =>
      exact .string content
  | array _ ih =>
      refine .array rfl ?_
      intro i a b ha hb
      cases ha.symm.trans hb
      exact ih a (List.mem_of_getElem? ha) (scope.item i)
  | object _ _ ih =>
      refine filled_object_iff.mpr ⟨_, rfl, fun _ here => here, ?_⟩
      intro key b here
      exact ⟨b, Or.inl here, ih _ (Members.mem_of_get? here) (scope.member key)⟩

/-- What has grown twice has grown: a member from what its origin has grown from, and one that was
put in the second time from its default. -/
theorem Filled.trans
    {a b c : Tree}
    (h : Filled scope a b)
    (k : Filled scope b c) :
    Filled scope a c := by
  induction h generalizing c with
  | null | boolean | number | string =>
      exact k
  | array same items ih =>
      cases k with
      | array same' items' =>
          refine .array (same.trans same') ?_
          intro i a c ha hc
          obtain ⟨inside, _⟩ := List.getElem?_eq_some_iff.mp ha
          have hb := List.getElem?_eq_getElem (same ▸ inside)
          exact ih i a _ ha hb (items' i _ c hb hc)
  | @object scope members members' origin kept isOrigin _ ih =>
      obtain ⟨members'', rfl, kept', each⟩ := filled_object_iff.mp k
      refine filled_object_iff.mpr ⟨members'', rfl, fun key here => kept' key (kept key here), ?_⟩
      intro key c there
      obtain ⟨b, here | ⟨absent, default⟩, filled⟩ := each key c there
      · exact ⟨origin key, isOrigin key b here, ih key b here filled⟩
      · have absentBefore : members.contains key = false := by
          cases before : members.contains key with
          | false =>
              rfl
          | true =>
              rw [kept key before] at absent
              cases absent
        exact ⟨b, Or.inr ⟨absentBefore, default⟩, filled⟩

/-- A member is filled in its place. -/
theorem Filled.replace
    {a b : Tree}
    (ordered : OrderedMembers members)
    (here : members.get? key = some a)
    (filled : Filled (scope.member key) a b) :
    Filled scope (.object members) (.object (members.replace key b)) := by
  refine filled_object_iff.mpr ⟨_, rfl, ?_, ?_⟩
  · exact fun other kept => (Members.contains_replace members key b other).trans kept
  · intro other c there
    rw [Members.get?_replace] at there
    by_cases same : other = key
    · subst same
      simp only [here, if_true, Option.map_some, Option.some.injEq] at there
      exact ⟨a, Or.inl here, there ▸ filled⟩
    · rw [if_neg same] at there
      exact ⟨c, Or.inl there, .refl (ordered.member there) _⟩

/-- A default is put in where a schema in scope has it for a missing member. -/
theorem Filled.insert
    (ordered : OrderedMembers members)
    (orderedValue : value.Ordered)
    (origin : Origin scope members key value) :
    Filled scope (.object members) (.object (members.insert key value)) := by
  refine filled_object_iff.mpr ⟨_, rfl, ?_, ?_⟩
  · exact fun other kept => Members.contains_insert kept key value
  · intro other b there
    rw [Members.get?_insert] at there
    split at there
    · rename_i same
      subst same
      cases there
      exact ⟨value, origin, .refl orderedValue _⟩
    · exact ⟨b, Or.inl there, .refl (ordered.member there) _⟩

/-- An item is filled in its place. -/
theorem Filled.set
    {items : List Tree} {i : Nat} {a b : Tree}
    (ordered : OrderedItems items)
    (here : items[i]? = some a)
    (filled : Filled (scope.item i) a b) :
    Filled scope (.array items) (.array (items.set i b)) := by
  refine .array List.length_set.symm ?_
  intro j c d before after
  rw [List.getElem?_set] at after
  split at after
  · rename_i same
    subst same
    cases here.symm.trans before
    split at after
    · cases after
      exact filled
    · cases after
  · cases before.symm.trans after
    exact .refl (ordered c (List.mem_of_getElem? before)) _

theorem spreads_filled
    (scope : Scope) :
    Spreads (Filled scope)
      (fun key => Filled (scope.member key)) fun i => Filled (scope.item i) where
  refl _ ordered := .refl ordered scope
  trans _ _ _ := Filled.trans
  replace _ _ _ _ := Filled.replace
  set _ _ _ _ := Filled.set

end Filled

/-! ## Walks -/

variable {options : ValidatorOptions}

/-- Walking with a schema in scope fills the data by the schemas in scope. -/
theorem leaves_walk_filled
    (height depth : Nat)
    (schema : Tree)
    (path place : Pointer)
    (ordered : schema.Ordered)
    (scope : Scope)
    (closed : scope.Closed)
    (inScope : scope schema) :
    Leaves Tree.Ordered (Filled scope) (walk engine options height depth schema path place) := by
  refine walk_induction (fun schema check => schema.Ordered → ∀ scope : Scope, scope.Closed →
    scope schema → Leaves Tree.Ordered (Filled scope) check) ?_ ?_ ?_ height depth schema path place
    ordered scope closed inScope
  · exact fun _ _ scope _ _ => looks_pass.leaves fun _ ordered => .refl ordered scope
  · exact fun _ e _ scope _ _ => (looks_raise e).leaves fun _ ordered => .refl ordered scope
  · intro height depth rules path place below ordered scope closed inScope
    refine leaves_level (spreads_filled scope) ordered ⟨?_, ?_, ?_⟩ ?_
    · intro entry mem path place
      have applied := applied_part (part_of_property mem)
      exact below entry.2 applied path place (applied.ordered ordered) (scope.member entry.1)
        (Scope.closed_of _) (.given ⟨rules, inScope, mem⟩)
    · intro i schema isItem path place
      have applied := applied_part (part_of_item (mem_itemSchemas isItem))
      exact below schema applied path place (applied.ordered ordered) (scope.item i)
        (Scope.closed_of _) (.given ⟨rules, inScope, isItem⟩)
    · intro entry mem value isDefault members orderedMembers absent
      have orderedValue := ordered_default (ordered_entry (ordered_properties ordered) mem)
      exact .insert orderedMembers (orderedValue value isDefault)
        (Or.inr ⟨absent, rules, entry.2, inScope, mem, isDefault⟩)
    · intro schema mem path place
      have applied := applied_branch mem
      exact below schema applied path place (applied.ordered ordered) scope closed
        (closed rules inScope schema mem)

end Schema

namespace Validator

open Schema

variable {engine : Pattern.Engine}

/-- Whatever checking comes to, the document afterwards is the document before with defaults put
in where members were missing. -/
theorem checkAndFill_extends
    (schema : Tree)
    (options : ValidatorOptions)
    (data : Tree)
    (engine : Pattern.Engine)
    (orderedSchema : schema.Ordered)
    (orderedData : data.Ordered) :
    (checkAndFill schema options data engine).2.Ordered ∧
      Filled (Scope.root schema) data (checkAndFill schema options data engine).2 :=
  leaves_walk_filled _ _ schema _ _ orderedSchema (Scope.root schema) (Scope.closed_of _)
    (.given rfl) data orderedData

/-- The schema of an object whose member `a` is an empty object by default, where `b` is null by
default but should be a string. -/
def nestedDefault : Tree :=
  .object [("properties", .object [("a", .object [("default", .object []),
    ("properties", .object [("b", .object [("default", .null), ("type", .string "string")])])])])]

theorem ordered_nestedDefault :
    nestedDefault.Ordered := by
  have inner : (Tree.object [("default", .null), ("type", .string "string")]).Ordered := by
    refine .object (by unfold Members.Sorted; decide) ?_
    simp only [List.forall_mem_cons]
    exact ⟨.null, .string _, by simp⟩
  refine .singleton (.singleton (.object (by unfold Members.Sorted; decide) ?_))
  simp only [List.forall_mem_cons]
  exact ⟨.object .nil (by simp), .singleton inner, by simp⟩

theorem checkAndFill_extends_nestedDefault :
    (checkAndFill nestedDefault {} (.object [])).1.map (·.valid) = .ok false ∧
      (checkAndFill nestedDefault {} (.object [])).2 = .object [("a", .object [("b", .null)])] ∧
      Filled (Scope.root nestedDefault) (.object []) (.object [("a", .object [("b", .null)])]) :=
  ⟨rfl, rfl, (checkAndFill_extends nestedDefault {} (.object []) Pattern.plain
    ordered_nestedDefault (.object .nil (by simp))).2⟩

end Validator
end JsonDoc
