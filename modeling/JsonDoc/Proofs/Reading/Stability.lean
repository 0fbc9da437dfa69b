import JsonDoc.Proofs.Reading.TokenStability

/-!
# Stability of reading

What is read of a buffer stays as it is when more bytes arrive, up to the tokens that end where the
buffer ends: `Grammar.read_append_stable`.
-/

namespace JsonDoc
namespace Grammar

open Run

variable {s : Scanner} {more : List UInt8} {g : Grammar}

/-! ## Keys and values -/

theorem continues_key
    (g : Grammar)
    (s : Scanner)
    (more : List UInt8) :
    Continues more (g.key s) (g.key (s.extend more)) := by
  by_cases atEnd : s.rest = []
  · exact continues_of_rest_nil (orderly_key g s) atEnd more _
  · obtain ⟨b, peek⟩ := Scanner.peek_of_rest_ne_nil atEnd
    cases g with
    | strict =>
        simp only [key]
        rw [Scanner.peek_extend peek, peek]
        split
        · exact continues_string s more
        · exact continues_missing s _ more
    | relaxed =>
        simp only [key]
        rw [Scanner.peek_extend peek, peek]
        split
        · exact continues_string s more
        · split
          · exact continues_word s more
          · exact continues_missing s _ more

theorem continues_unknown
    (g : Grammar)
    (s : Scanner)
    (more : List UInt8) :
    Continues more (g.unknown s) (g.unknown (s.extend more)) := by
  by_cases atEnd : s.rest = []
  · exact continues_of_rest_nil (orderly_unknown g s) atEnd more _
  · obtain ⟨b, peek⟩ := Scanner.peek_of_rest_ne_nil atEnd
    cases g with
    | strict =>
        exact continues_missing s _ more
    | relaxed =>
        simp only [unknown]
        rw [Scanner.peek_extend peek, peek]
        split
        · exact continues_word s more
        · exact continues_missing s _ more

theorem continues_opening
    {byte : UInt8}
    (peek : s.peek = some byte)
    (expected : Expectation)
    (kind : EventKind)
    (more : List UInt8) :
    Continues more (opening byte expected kind s) (opening byte expected kind (s.extend more)) := by
  have deeper : (s.extend more).deeper.exceeded? = s.deeper.exceeded? := rfl
  cases limited : s.deeper.exceeded? with
  | none =>
      rw [opening_of_within peek limited, opening_of_within (Scanner.peek_extend peek more)
        (deeper.trans limited), Scanner.bump_extend peek]
      refine .settled ?_
      rw [Scanner.eventTo_extend (Scanner.passes_bump peek)]
      rfl
  | some limit =>
      rw [opening_of_exceeded limited, opening_of_exceeded (deeper.trans limited)]
      exact .settled rfl

theorem continues_closing
    (byte : UInt8)
    (expected : Expectation)
    (kind : EventKind)
    (s : Scanner)
    (more : List UInt8) :
    Continues more (closing byte expected kind s) (closing byte expected kind (s.extend more)) := by
  have leave (t : Scanner) : Orderly t (done t.leave) := (silent_done (.leave t)).orderly
  refine Continues.andThen ?_ (fun _ => leave _) fun _ => .settled rfl
  exact continues_token (continues_expect byte expected s more) (silent_expect byte expected s)
    kind

/-! ## Containers -/

variable {sep : Separation} {item : Rule}

theorem continues_afterItem
    {next next' : Rule}
    (orderly : ∀ t, Orderly t (next t))
    (hn : ∀ t : Scanner, t.rest.length < s.rest.length →
      Continues more (next t) (next' (t.extend more))) :
    Continues more (g.afterItem sep next s) (g.afterItem sep next' (s.extend more)) := by
  by_cases atEnd : (g.skip s).rest = []
  · have eq : g.afterItem sep next s = missing (g.skip s) sep.afterItem := by
      simp [afterItem, Scanner.peek, atEnd]
    rw [eq]
    exact continues_of_rest_nil (orderly_missing sep.afterItem (g.skip s)) atEnd more _
  · obtain ⟨b, peek⟩ := Scanner.peek_of_rest_ne_nil atEnd
    unfold afterItem
    rw [skip_extend atEnd]
    simp only [Scanner.peek_extend peek, peek, Scanner.bump_extend peek]
    split
    · have shorter : (g.skip (g.skip s).bump).rest.length < s.rest.length :=
        Nat.lt_of_lt_of_le (length_rest_skip_bump_lt g peek) (length_rest_skip_le g s)
      by_cases nothing : (g.skip (g.skip s).bump).rest = []
      · have notClose : (g.skip (g.skip s).bump).peek ≠ some sep.close := by
          simp [Scanner.peek, nothing]
        rw [if_neg notClose]
        exact continues_of_rest_nil (orderly _) nothing more _
      · obtain ⟨c, peek'⟩ := Scanner.peek_of_rest_ne_nil nothing
        rw [skip_extend nothing, Scanner.peek_extend peek', peek']
        split
        · exact .refl_fail more _ _
        · exact hn _ shorter
    · split
      · exact .done more _
      · exact continues_missing _ _ more

theorem continues_series
    (orderly : ∀ t, Orderly t (item t))
    {n : Nat}
    (each : ∀ t : Scanner, t.rest.length ≤ n → Continues more (item t) (item (t.extend more))) :
    ∀ (bound : Nat) (s : Scanner), s.rest.length ≤ bound → bound ≤ n →
      Continues more (g.series sep item s) (g.series sep item (s.extend more)) := by
  intro bound
  induction bound with
  | zero =>
      intro s hs _
      exact continues_of_rest_nil (orderly_items orderly _ s)
        (List.eq_nil_of_length_eq_zero (by omega)) more _
  | succ bound ih =>
      intro s hs hn
      have shorter := (orderly s).length_rest_le
      have others : ∀ t, Orderly t (g.series sep item t) := fun t => orderly_items orderly _ t
      rw [series_eq orderly, series_eq orderly]
      refine (each s (by omega)).andThen (fun _ => orderly_afterItem others _) fun _ => ?_
      exact continues_afterItem others fun t ht => ih t (by omega) (by omega)

theorem continues_itemsOrNone
    (orderly : ∀ t, Orderly t (item t))
    (each : ∀ t : Scanner, t.rest.length ≤ s.rest.length →
      Continues more (item t) (item (t.extend more))) :
    Continues more (g.itemsOrNone sep item s) (g.itemsOrNone sep item (s.extend more)) := by
  have shorter := length_rest_skip_le g s
  unfold itemsOrNone
  simp only
  by_cases atEnd : (g.skip s).rest = []
  · have notClose : (g.skip s).peek ≠ some sep.close := by
      simp [Scanner.peek, atEnd]
    rw [if_neg notClose]
    exact continues_of_rest_nil (orderly_items orderly _ _) atEnd more _
  · obtain ⟨b, peek⟩ := Scanner.peek_of_rest_ne_nil atEnd
    rw [skip_extend atEnd, Scanner.peek_extend peek, peek]
    split
    · exact .done more _
    · exact continues_series orderly each _ (g.skip s) (Nat.le_refl _) shorter

theorem continues_container
    (orderly : ∀ t, Orderly t (item t))
    (brackets : Brackets)
    (peek : s.peek = some brackets.first)
    (each : ∀ t : Scanner, t.rest.length < s.rest.length →
      Continues more (item t) (item (t.extend more))) :
    Continues more (g.container brackets sep item s)
      (g.container brackets sep item (s.extend more)) := by
  have inside (t : Scanner) : Orderly t ((g.itemsOrNone sep item t).andThen
      (closing sep.close brackets.missingLast brackets.ends)) :=
    (orderly_itemsOrNone orderly t).andThen fun _ => orderly_closing _ _ _ _
  refine (continues_opening peek _ _ more).andThen (fun _ => inside _) fun ok => ?_
  have shorter := length_rest_opening_lt peek ok
  refine (continues_itemsOrNone orderly ?_).andThen (fun _ => orderly_closing _ _ _ _)
    fun _ => continues_closing _ _ _ _ more
  exact fun t ht => each t (by omega)

/-! ## Values -/

variable {value : Rule}

/-- What follows a key: a colon and a value. -/
def colonAndValue (g : Grammar) (value : Rule) : Rule := fun s =>
  (expect Byte.colon .colonAfterKey s).andThen fun t => value (g.skip t)

theorem orderly_colonAndValue
    (orderly : ∀ t, Orderly t (value t))
    (s : Scanner) :
    Orderly s (g.colonAndValue value s) :=
  (silent_expect _ _ s).orderly.andThen fun _ => .from (passes_skip g _) (orderly _)

theorem continues_colonAndValue
    (orderly : ∀ t, Orderly t (value t))
    (s : Scanner)
    (each : ∀ t : Scanner, t.rest.length ≤ s.rest.length →
      Continues more (value t) (value (t.extend more))) :
    Continues more (g.colonAndValue value s) (g.colonAndValue value (s.extend more)) := by
  refine (continues_expect _ _ s more).andThen
    (fun _ => .from (passes_skip g _) (orderly _)) fun _ => ?_
  refine continues_from_skip value value (orderly _) (each _ ?_)
  have colonShorter := (silent_expect Byte.colon .colonAfterKey s).orderly.length_rest_le
  have valueShorter := length_rest_skip_le g (expect Byte.colon .colonAfterKey s).stop
  omega

theorem continues_member
    (orderly : ∀ t, Orderly t (value t))
    (s : Scanner)
    (each : ∀ t : Scanner, t.rest.length ≤ s.rest.length →
      Continues more (value t) (value (t.extend more))) :
    Continues more (g.member value s) (g.member value (s.extend more)) := by
  have isOrderly := orderly_colonAndValue (g := g) orderly
  have keyShorter := (orderly_key g s).length_rest_le
  have skipShorter := length_rest_skip_le g (g.key s).stop
  refine (continues_key g s more).andThen
    (fun _ => .from (passes_skip g _) (isOrderly _)) fun _ => ?_
  refine continues_from_skip (g.colonAndValue value) (g.colonAndValue value) (isOrderly _) ?_
  exact continues_colonAndValue orderly _ fun t ht => each t (by omega)

theorem continues_value
    (g : Grammar)
    (more : List UInt8) :
    ∀ (n : Nat) (s : Scanner),
      s.rest.length < n → Continues more (g.value s) (g.value (s.extend more)) := by
  intro n
  induction n with
  | zero =>
      exact fun s hs => absurd hs (Nat.not_lt_zero _)
  | succ n ih =>
      intro s hs
      by_cases atEnd : s.rest = []
      · exact continues_of_rest_nil (orderly_value g s) atEnd more _
      · obtain ⟨b, peek⟩ := Scanner.peek_of_rest_ne_nil atEnd
        have leads := Leading.leads_ofByte b
        rw [value_eq]
        unfold valueOf
        simp only [Scanner.peek_extend peek, peek]
        cases kind : Leading.ofByte b with
        | number =>
            exact continues_number g s more
        | string =>
            exact continues_string s more
        | literal l =>
            exact continues_literal g l s more
        | array =>
            rw [kind] at leads
            have first : b = arrayBrackets.first := leads
            rw [first] at peek
            exact continues_container (orderly_value g) arrayBrackets peek
              fun t ht => ih t (by omega)
        | object =>
            rw [kind] at leads
            have first : b = objectBrackets.first := leads
            rw [first] at peek
            refine continues_container (orderly_member (orderly_value g)) objectBrackets peek
              fun t ht => ?_
            exact continues_member (orderly_value g) t fun u hu => ih u (by omega)
        | other =>
            exact continues_unknown g s more

/-! ## Whole inputs -/

theorem continues_read
    (g : Grammar)
    (maxDepth : Option Nat)
    (p q : List UInt8) :
    Continues q (g.read maxDepth p) (g.read maxDepth (p ++ q)) := by
  have start : Scanner.start (p ++ q) maxDepth = (Scanner.start p maxDepth).extend q := rfl
  let rule : Rule := fun s => (g.value s).andThen fun t => done (g.skip t)
  have isOrderly (s : Scanner) : Orderly s (rule s) :=
    (orderly_value g s).andThen fun _ => orderly_skip g _
  rw [read, read, start]
  refine continues_from_skip rule rule (isOrderly _) ?_
  refine (continues_value g q _ _ (Nat.lt_succ_self _)).andThen (fun _ => orderly_skip g _) ?_
  exact fun _ => continues_skip g _ q

/-- Reading an input that goes on after a buffer: a fault at a byte of the buffer stays as it is,
with the events before it; the events that end inside the buffer stay; an overrun stands at the
end of the buffer; and a buffer that an input without a fault begins with has no other fault. -/
theorem read_append_stable
    (g : Grammar)
    (maxDepth : Option Nat)
    (p q : List UInt8) :
    (∀ error, (g.read maxDepth p).error = some error → error.isOverrun = false →
        (g.read maxDepth (p ++ q)).error = some error ∧
          (g.read maxDepth (p ++ q)).events = (g.read maxDepth p).events) ∧
      (g.read maxDepth p).events.filter (fun event => decide (event.span.stop < p.length)) <+:
        (g.read maxDepth (p ++ q)).events ∧
      (∀ offset expected, (g.read maxDepth p).error = some (.overrun offset expected) →
        offset = p.length) ∧
      ((g.read maxDepth (p ++ q)).error = none → ∀ error, (g.read maxDepth p).error = some error →
        error.isOverrun = true) := by
  have orderly := orderly_read g maxDepth p
  have length : (g.read maxDepth p).stop.length = p.length := by
    rw [orderly.length_stop]
    simp [Scanner.length, Scanner.start]
  have continues := continues_read g maxDepth p q
  have fault : ∀ error, (g.read maxDepth p).error = some error → error.isOverrun = false →
      (g.read maxDepth (p ++ q)).error = some error ∧
        (g.read maxDepth (p ++ q)).events = (g.read maxDepth p).events := by
    intro error failed notOverrun
    cases continues with
    | settled eq =>
        rw [eq]
        exact ⟨failed, rfl⟩
    | unsettled _ _ isOpen _ _ _ =>
        rcases isOpen with ⟨_, _, overrun⟩ | ⟨none, _⟩
        · rw [failed] at overrun
          cases overrun
          simp [ParseError.isOverrun] at notOverrun
        · simp [failed] at none
  refine ⟨fault, ?_, ?_, ?_⟩
  · cases continues with
    | settled eq =>
        rw [eq]
        exact Event.InOrder.filter_isPrefix _ orderly.inOrder
    | unsettled before atEnd isOpen split isPrefix ends =>
        have none : atEnd.filter (fun event => decide (event.span.stop < p.length)) = [] := by
          refine List.filter_eq_nil_iff.mpr ?_
          intro event mem
          simp [ends event mem, length]
        have inOrder := orderly.inOrder
        rw [split] at inOrder
        rw [split, List.filter_append, none, List.append_nil]
        exact (Event.InOrder.filter_isPrefix _ inOrder.of_append).trans isPrefix
  · intro offset expected overrun
    rw [← length]
    exact orderly.standsAt _ overrun
  · intro ok error failed
    cases overrun : error.isOverrun with
    | true =>
        rfl
    | false =>
        rw [(fault error failed overrun).1] at ok
        simp at ok

end Grammar
end JsonDoc
