import JsonDoc.Proofs.Reading.Progress

/-!
# Recursion of the grammar

The bounds in `Grammar.nested` and `Grammar.items` make the rules total and mean nothing else:
with a bound of at least the number of bytes ahead, a rule does the same as with any larger one.
So values satisfy the recursion that they are described by, `value_eq` and `series_eq`.
-/

namespace JsonDoc
namespace Run

theorem andThen_congr
    {run : Run} {f g : Rule}
    (h : run.error = none → f run.stop = g run.stop) :
    run.andThen f = run.andThen g := by
  cases he : run.error with
  | some error =>
      rw [andThen_of_error he, andThen_of_error he]
  | none =>
      simp only [andThen, he, h he]

end Run

namespace Grammar

open Run

/-- Two rules do the same wherever at most `n` bytes are ahead. -/
def AgreeUpTo (n : Nat) (f f' : Rule) : Prop :=
  ∀ s : Scanner, s.rest.length ≤ n → f s = f' s

variable {g : Grammar} {sep : Separation} {f f' : Rule} {n : Nat}

theorem length_rest_skip_le
    (g : Grammar)
    (s : Scanner) :
    (g.skip s).rest.length ≤ s.rest.length :=
  (passes_skip g s).length_rest_le

/-- Past a byte and what means nothing after it, fewer bytes are ahead. -/
theorem length_rest_skip_bump_lt
    {s : Scanner} {b : UInt8}
    (g : Grammar)
    (h : s.peek = some b) :
    (g.skip s.bump).rest.length < s.rest.length :=
  Nat.lt_of_le_of_lt (length_rest_skip_le g _)
    ((Scanner.passes_bump h).length_rest_lt (by simp))

theorem afterItem_congr
    {s : Scanner}
    (h : ∀ t : Scanner, t.rest.length < s.rest.length → f t = f' t) :
    g.afterItem sep f s = g.afterItem sep f' s := by
  unfold afterItem
  simp only
  split
  · rfl
  · rename_i b peek
    have shorter : (g.skip (g.skip s).bump).rest.length < s.rest.length :=
      Nat.lt_of_lt_of_le (length_rest_skip_bump_lt g peek) (length_rest_skip_le g s)
    rw [h _ shorter]

theorem items_congr
    (agree : AgreeUpTo n f f')
    (orderly : ∀ s, Orderly s (f s)) :
    ∀ (bound bound' : Nat) (s : Scanner), s.rest.length ≤ n → s.rest.length ≤ bound →
      s.rest.length ≤ bound' → g.items sep f bound s = g.items sep f' bound' s := by
  intro bound
  induction bound with
  | zero =>
      intro bound' s hn hb _
      have empty : (f s).stop.rest.length = 0 := by
        have := (orderly s).length_rest_le
        omega
      cases bound' with
      | zero =>
          simp only [items, agree s hn]
      | succ bound' =>
          simp only [items, agree s hn]
          rw [agree s hn] at empty
          refine andThen_congr fun _ => afterItem_congr ?_
          intro t ht
          omega
  | succ bound ih =>
      intro bound' s hn hb hb'
      have shorter := (orderly s).length_rest_le
      rw [agree s hn] at shorter
      cases bound' with
      | zero =>
          simp only [items, agree s hn]
          refine andThen_congr fun _ => afterItem_congr ?_
          intro t ht
          omega
      | succ bound' =>
          simp only [items, agree s hn]
          refine andThen_congr fun _ => afterItem_congr ?_
          intro t ht
          exact ih bound' t (by omega) (by omega) (by omega)

/-- Items with commas between them, without a bound on their number. -/
def series (g : Grammar) (sep : Separation) (item : Rule) : Rule := fun s =>
  g.items sep item s.rest.length s

theorem series_eq
    (orderly : ∀ s, Orderly s (f s))
    (s : Scanner) :
    g.series sep f s = (f s).andThen (g.afterItem sep (g.series sep f)) := by
  have shorter := (orderly s).length_rest_le
  have larger : g.series sep f s = g.items sep f (s.rest.length + 1) s :=
    items_congr (n := s.rest.length) (fun _ _ => rfl) orderly _ _ s (Nat.le_refl _)
      (Nat.le_refl _) (Nat.le_succ _)
  rw [larger, items]
  refine andThen_congr fun _ => afterItem_congr ?_
  intro t ht
  exact items_congr (n := t.rest.length) (fun _ _ => rfl) orderly _ _ t (Nat.le_refl _)
    (by omega) (Nat.le_refl _)

theorem itemsOrNone_congr
    (agree : AgreeUpTo n f f')
    (orderly : ∀ s, Orderly s (f s))
    {s : Scanner}
    (hs : s.rest.length ≤ n) :
    g.itemsOrNone sep f s = g.itemsOrNone sep f' s := by
  have shorter := length_rest_skip_le g s
  unfold itemsOrNone
  simp only
  split
  · rfl
  · exact items_congr agree orderly _ _ _ (by omega) (Nat.le_refl _) (Nat.le_refl _)

theorem member_congr
    (agree : AgreeUpTo n f f') :
    AgreeUpTo n (g.member f) (g.member f') := by
  intro s hs
  refine andThen_congr fun _ => andThen_congr fun _ => agree _ ?_
  have h₁ := (orderly_key g s).length_rest_le
  have h₂ := length_rest_skip_le g (g.key s).stop
  have h₃ := (silent_expect Byte.colon .colonAfterKey
      (g.skip (g.key s).stop)).orderly.length_rest_le
  have h₄ := length_rest_skip_le g (expect Byte.colon .colonAfterKey (g.skip (g.key s).stop)).stop
  omega

/-- Inside a container fewer bytes are ahead than before it. -/
theorem length_rest_opening_lt
    {s : Scanner} {byte : UInt8}
    (h : s.peek = some byte)
    {expected : Expectation} {kind : EventKind}
    (ok : (opening byte expected kind s).error = none) :
    (opening byte expected kind s).stop.rest.length < s.rest.length := by
  cases limited : s.deeper.exceeded? with
  | none =>
      rw [opening_of_within h limited]
      exact (Scanner.passes_bump h).length_rest_lt (by simp)
  | some limit =>
      simp [opening_of_exceeded limited, fail] at ok

theorem valueOf_congr
    {s : Scanner}
    (agree : AgreeUpTo n f f')
    (orderly : ∀ s, Orderly s (f s))
    (hs : s.rest.length ≤ n + 1) :
    g.valueOf f s = g.valueOf f' s := by
  unfold valueOf
  split
  · rfl
  · rename_i b peek
    have leads := Leading.leads_ofByte b
    cases kind : Leading.ofByte b with
    | array =>
        rw [kind] at leads
        refine andThen_congr fun ok => ?_
        have shorter := length_rest_opening_lt (leads ▸ peek) ok
        rw [itemsOrNone_congr agree orderly (by omega)]
    | object =>
        rw [kind] at leads
        refine andThen_congr fun ok => ?_
        have shorter := length_rest_opening_lt (leads ▸ peek) ok
        rw [itemsOrNone_congr (member_congr agree) (orderly_member orderly) (by omega)]
    | number | string | literal | other =>
        rfl

theorem nested_congr
    (g : Grammar) :
    ∀ (levels levels' : Nat) (s : Scanner),
      s.rest.length ≤ levels → s.rest.length ≤ levels' →
        g.nested levels s = g.nested levels' s := by
  intro levels
  induction levels with
  | zero =>
      intro levels' s hl _
      have empty : s.peek = none := by
        have : s.rest = [] := List.eq_nil_of_length_eq_zero (by omega)
        simp [Scanner.peek, this]
      cases levels' <;> simp [nested, valueOf, empty]
  | succ levels ih =>
      intro levels' s hl hl'
      cases levels' with
      | zero =>
          have empty : s.peek = none := by
            have : s.rest = [] := List.eq_nil_of_length_eq_zero (by omega)
            simp [Scanner.peek, this]
          simp [nested, valueOf, empty]
      | succ levels' =>
          rw [nested, nested]
          refine valueOf_congr (n := min levels levels') ?_ (orderly_nested g levels) (by omega)
          intro t ht
          exact ih levels' t (by omega) (by omega)

/-! ## Containers -/

/-- How a container opens and what closes it. -/
structure Brackets where
  first : UInt8
  missingFirst : Expectation
  begins : EventKind
  missingLast : Expectation
  ends : EventKind

def arrayBrackets : Brackets :=
  ⟨Byte.openBracket, .openingBracket, .arrayBegin, .closingBracket, .arrayEnd⟩

def objectBrackets : Brackets :=
  ⟨Byte.openBrace, .openingBrace, .objectBegin, .closingBrace, .objectEnd⟩

/-- A container of items. -/
def container
    (g : Grammar)
    (brackets : Brackets)
    (sep : Separation)
    (item : Rule) : Rule :=
  fun s => (opening brackets.first brackets.missingFirst brackets.begins s).andThen fun t =>
    (g.itemsOrNone sep item t).andThen (closing sep.close brackets.missingLast brackets.ends)

theorem arrayOf_eq
    (g : Grammar)
    (value : Rule) :
    g.arrayOf value = g.container arrayBrackets elementSeparation value := rfl

theorem objectOf_eq
    (g : Grammar)
    (value : Rule) :
    g.objectOf value = g.container objectBrackets memberSeparation (g.member value) := rfl

theorem valueOf_array
    {g : Grammar} {s : Scanner}
    (peek : s.peek = some Byte.openBracket)
    (value : Rule) :
    g.valueOf value s = g.arrayOf value s := by
  simp only [valueOf, peek]
  rfl

theorem valueOf_object
    {g : Grammar} {s : Scanner}
    (peek : s.peek = some Byte.openBrace)
    (value : Rule) :
    g.valueOf value s = g.objectOf value s := by
  simp only [valueOf, peek]
  rfl

/-- The ways in which a value is read that is no container. -/
theorem valueOf_scalar
    {g : Grammar} {s : Scanner} {P : Run → Prop}
    (value : Rule)
    (notArray : s.peek ≠ some Byte.openBracket)
    (notObject : s.peek ≠ some Byte.openBrace)
    (nothing : P (missing s .value))
    (number : P (g.number s))
    (string : s.peek = some Byte.quote → P (string s))
    (literal : ∀ b l, s.peek = some b → Leading.ofByte b = .literal l → P (g.literal l s))
    (unknown : ∀ b, s.peek = some b → Leading.ofByte b = .other → P (g.unknown s)) :
    P (g.valueOf value s) := by
  unfold valueOf
  cases peek : s.peek with
  | none =>
      exact nothing
  | some b =>
      have leads := Leading.leads_ofByte b
      simp only
      cases kind : Leading.ofByte b with
      | number =>
          exact number
      | string =>
          rw [kind] at leads
          exact string (leads ▸ peek)
      | literal l =>
          exact literal b l peek kind
      | array =>
          rw [kind] at leads
          exact absurd (leads ▸ peek) notArray
      | object =>
          rw [kind] at leads
          exact absurd (leads ▸ peek) notObject
      | other =>
          exact unknown b peek kind

/-- A value holds values. -/
theorem value_eq
    (g : Grammar) :
    g.value = g.valueOf g.value := by
  funext s
  have larger : g.value s = g.nested (s.rest.length + 1) s :=
    nested_congr g _ _ s (Nat.le_refl _) (Nat.le_succ _)
  rw [larger, nested]
  refine valueOf_congr (n := s.rest.length) ?_ (orderly_nested g _) (Nat.le_succ _)
  intro t ht
  exact nested_congr g _ _ t ht (Nat.le_refl _)

end Grammar
end JsonDoc
