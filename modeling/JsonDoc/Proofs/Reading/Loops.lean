import JsonDoc.Proofs.Reading.Recursion
import Mathlib.Logic.Function.Iterate

/-!
# Loops

What is read in a loop is told here by one pass through the loop, which gets the rule to go on
with: `pass more`. A pass that goes on has read at least one byte before it does, so a loop ends
on every input: unwound more often than there are bytes ahead, it never comes to the rule that
stands at the bottom, whatever that is. Values are read by a recursion in the same sense, in which
one round may go on more than once.

The loops are the ones over the bytes of a class, over blanks and comments, over the characters of
a string and over the items of a container.
-/

namespace JsonDoc
namespace Run

/-- What one pass comes to, however the loop goes on: it stops, or it has read at least one byte
and the loop goes on from there. -/
inductive Advances (s : Scanner) (pass : Rule → Run) : Prop
  | stops (run : Run) : (∀ more, pass more = run) → Advances s pass
  | goesOn (run : Run) (text : List UInt8) : run.error = none → s.Passes text run.stop →
      text ≠ [] → (∀ more, pass more = run.andThen more) → Advances s pass

/-- One round of a recursion consumes input: it looks at what the rule does only at places with
fewer bytes ahead, as long as the rule moves on there. -/
def Consumes (round : Rule → Rule) : Prop :=
  ∀ (s : Scanner) (f f' : Rule),
    (∀ t : Scanner, t.rest.length < s.rest.length → Orderly t (f t) ∧ f t = f' t) →
      round f s = round f' s

/-- The rule is what a recursion comes to, and the recursion ends at every place: unwound more
often than there are bytes ahead, it is the rule, whatever stands at the bottom. -/
structure Unwinds (round : Rule → Rule) (rule : Rule) : Prop where
  again : round rule = rule
  consumes : Consumes round
  ends : ∀ (bottom : Rule) (n : Nat) (s : Scanner), s.rest.length < n →
    round^[n] bottom s = rule s

/-- The rule is what a loop comes to, and every pass of the loop stops or reads something. -/
structure Loops (pass : Rule → Rule) (rule : Rule) : Prop extends Unwinds pass rule where
  advances : ∀ s, Advances s fun more => pass more s

variable {s : Scanner} {pass round : Rule → Rule} {rule : Rule}

/-- By induction on how often the recursion is unwound: a round looks only at places where once
less is enough. -/
theorem Consumes.unwinds
    (h : Consumes round)
    (again : round rule = rule)
    (orderly : ∀ s, Orderly s (rule s)) :
    Unwinds round rule where
  again := again
  consumes := h
  ends := by
    intro bottom n
    induction n with
    | zero =>
        exact fun s short => absurd short (Nat.not_lt_zero _)
    | succ n ih =>
        intro s short
        rw [Function.iterate_succ_apply']
        have same : round rule s = round (round^[n] bottom) s :=
          h s rule (round^[n] bottom) fun t fewer => ⟨orderly t, (ih t (by omega)).symm⟩
        rw [← same, again]

theorem consumes_of_advances
    (h : ∀ s, Advances s fun more => pass more s) :
    Consumes pass := by
  intro s f f' ahead
  cases h s with
  | stops run same =>
      rw [same f, same f']
  | goesOn run text ok passes moved same =>
      rw [same f, same f']
      exact andThen_congr fun _ => (ahead run.stop (passes.length_rest_lt moved)).2

theorem loops_of_advances
    (h : ∀ s, Advances s fun more => pass more s)
    (again : pass rule = rule)
    (orderly : ∀ s, Orderly s (rule s)) :
    Loops pass rule :=
  ⟨(consumes_of_advances h).unwinds again orderly, h⟩

/-- A pass that goes past some bytes and reads on by a rule before the loop goes on. -/
theorem advances_andThen
    {t : Scanner} {text : List UInt8} {run : Run}
    (start : s.Passes text t)
    (moved : text ≠ [])
    (orderly : Orderly t run) :
    Advances s fun more => run.andThen more := by
  cases error : run.error with
  | some e =>
      exact .stops run fun more => andThen_of_error error
  | none =>
      obtain ⟨more, passes⟩ := orderly.passes
      exact .goesOn run (text ++ more) error (start.trans passes) (by simp [moved]) fun _ => rfl

/-- A pass that goes past some bytes before the loop goes on. -/
theorem advances_next
    {t : Scanner} {text : List UInt8}
    (start : s.Passes text t)
    (moved : text ≠ []) :
    Advances s fun more => more t :=
  .goesOn (done t) text rfl start moved fun more => (done_andThen t more).symm

/-- A loop that goes on behind a part that has been read. -/
theorem Advances.after
    {next : Rule → Rule} {text : List UInt8} {run : Run}
    (h : Advances run.stop fun more => next more run.stop)
    (ok : run.error = none)
    (passes : s.Passes text run.stop) :
    Advances s fun more => run.andThen (next more) := by
  cases h with
  | stops more same =>
      refine .stops (run.andThen fun _ => more) fun rule => andThen_congr fun _ => same rule
  | goesOn more text' ok' passes' moved same =>
      have stop : (run.andThen fun _ => more).stop = more.stop := stop_andThen ok
      refine .goesOn (run.andThen fun _ => more) (text ++ text') ?_ ?_ (by simp [moved]) ?_
      · rw [error_andThen ok, ok']
      · rw [stop]
        exact passes.trans passes'
      · intro rule
        rw [andThen_assoc]
        exact andThen_congr fun _ => same rule

/-! ## Bytes of a class -/

/-- One byte of the class. -/
def whilePass (p : UInt8 → Bool) (more : Rule) : Rule := fun s =>
  if s.peek.any p then more s.bump else done s

end Run

namespace Scanner

variable {s : Scanner} {p : UInt8 → Bool}

theorem skipWhile_of_peek
    (h : s.peek.any p) :
    s.skipWhile p = s.bump.skipWhile p := by
  cases ahead : s.rest with
  | nil =>
      simp [peek, ahead] at h
  | cons b rest =>
      have isIn : p b := by simpa [peek, ahead] using h
      rw [skipWhile, skipWhile, rest_bump ahead, bump, advance_advance, ahead,
        List.takeWhile_cons_of_pos isIn, List.length_cons, Nat.add_comm]

theorem skipWhile_of_not
    (h : ¬ s.peek.any p) :
    s.skipWhile p = s := by
  have none : s.rest.takeWhile p = [] := by
    cases ahead : s.rest with
    | nil =>
        rfl
    | cons b rest =>
        have notIn : ¬ p b := by simpa [peek, ahead] using h
        exact List.takeWhile_cons_of_neg notIn
  rw [skipWhile, none, List.length_nil, advance_zero]

theorem rest_skipWhile
    (s : Scanner)
    (p : UInt8 → Bool) :
    (s.skipWhile p).rest = s.rest.dropWhile p := by
  have split := (passes_skipWhile s p).rest
  exact List.append_cancel_left (split.symm.trans List.takeWhile_append_dropWhile.symm)

/-- Past the bytes of a class, no byte of the class is next. -/
theorem peek_skipWhile
    (s : Scanner)
    (p : UInt8 → Bool) :
    ¬ (s.skipWhile p).peek.any p := by
  have head := List.head?_dropWhile_not p s.rest
  rw [peek, rest_skipWhile]
  cases next : (s.rest.dropWhile p).head? with
  | none =>
      simp
  | some b =>
      simpa [next] using head

theorem passes_bump_of_any
    (h : s.peek.any p) :
    ∃ b, s.Passes [b] s.bump := by
  cases peek : s.peek with
  | none =>
      simp [peek] at h
  | some b =>
      exact ⟨b, passes_bump peek⟩

end Scanner

namespace Run

theorem advances_whilePass
    (p : UInt8 → Bool)
    (s : Scanner) :
    Advances s fun more => whilePass p more s := by
  by_cases h : s.peek.any p
  · obtain ⟨b, passes⟩ := Scanner.passes_bump_of_any h
    simp only [whilePass, if_pos h]
    exact advances_next passes (List.cons_ne_nil b [])
  · simp only [whilePass, if_neg h]
    exact .stops (done s) fun _ => rfl

theorem whilePass_skipWhile
    (p : UInt8 → Bool) :
    (whilePass p fun s => done (s.skipWhile p)) = fun s => done (s.skipWhile p) := by
  funext s
  by_cases h : s.peek.any p
  · rw [whilePass, if_pos h, Scanner.skipWhile_of_peek h]
  · rw [whilePass, if_neg h, Scanner.skipWhile_of_not h]

theorem loops_skipWhile
    (p : UInt8 → Bool) :
    Loops (whilePass p) fun s => done (s.skipWhile p) :=
  loops_of_advances (advances_whilePass p) (whilePass_skipWhile p)
    fun s => (silent_done (Scanner.passes_skipWhile s p)).orderly

end Run

namespace Grammar

open Run

/-! ## Blanks and comments -/

/-- A byte that an open comment goes on with. -/
def inComment (b : UInt8) : Bool := b != Byte.lineFeed

/-- The blanks and, in the relaxed grammar, one comment after them. -/
def skipPass : Grammar → Rule → Rule
  | strict, _ => fun s => done (s.skipWhile Byte.isBlank)
  | relaxed, more => fun s =>
    let t := s.skipWhile Byte.isBlank
    if t.peek = some Byte.hash then more (t.skipWhile inComment) else done t

theorem commentedLength_blank :
    ∀ bytes : List UInt8, commentedLength false bytes =
      (bytes.takeWhile Byte.isBlank).length + commentedLength false (bytes.dropWhile Byte.isBlank)
  | [] => rfl
  | b :: bytes => by
      by_cases blank : Byte.isBlank b
      · rw [List.takeWhile_cons_of_pos blank, List.dropWhile_cons_of_pos blank, List.length_cons,
          commentedLength, if_pos blank, commentedLength_blank bytes]
        omega
      · rw [List.takeWhile_cons_of_neg blank, List.dropWhile_cons_of_neg blank]
        simp

/-- An open comment runs up to the line feed that ends it, which is a blank. -/
theorem commentedLength_comment :
    ∀ bytes : List UInt8, commentedLength true bytes =
      (bytes.takeWhile inComment).length + commentedLength false (bytes.dropWhile inComment)
  | [] => rfl
  | b :: bytes => by
      by_cases feed : b = Byte.lineFeed
      · subst feed
        have ends : ¬ inComment Byte.lineFeed := by decide
        rw [List.takeWhile_cons_of_neg ends, List.dropWhile_cons_of_neg ends]
        simp [commentedLength, Byte.isBlank]
      · have goesOn : inComment b := by simpa [inComment] using feed
        have same : (b != Byte.lineFeed) = true := goesOn
        rw [List.takeWhile_cons_of_pos goesOn, List.dropWhile_cons_of_pos goesOn,
          List.length_cons, commentedLength, same, commentedLength_comment bytes]
        omega

/-- Going past blanks first makes no difference to what is skipped. -/
theorem skip_blanks
    (s : Scanner) :
    relaxed.skip (s.skipWhile Byte.isBlank) = relaxed.skip s := by
  rw [skip, skip, Scanner.rest_skipWhile, triviaLength, triviaLength, commentedLength_blank s.rest,
    ← Scanner.advance_advance]
  rfl

/-- Nor does going past a comment. -/
theorem skip_comment
    {s : Scanner}
    (hash : s.peek = some Byte.hash) :
    relaxed.skip (s.skipWhile inComment) = relaxed.skip s := by
  obtain ⟨rest, ahead⟩ := Scanner.rest_of_peek hash
  have opens : commentedLength false s.rest = commentedLength true s.rest := by
    rw [ahead]
    rfl
  rw [skip, skip, Scanner.rest_skipWhile, triviaLength, triviaLength, opens,
    commentedLength_comment s.rest, ← Scanner.advance_advance]
  rfl

theorem skip_of_not
    {s : Scanner}
    (notBlank : ¬ s.peek.any Byte.isBlank)
    (notHash : s.peek ≠ some Byte.hash) :
    relaxed.skip s = s := by
  have nothing : commentedLength false s.rest = 0 := by
    cases ahead : s.rest with
    | nil =>
        rfl
    | cons b rest =>
        simp only [Scanner.peek, ahead, List.head?_cons, Option.any_some] at notBlank notHash
        have notHash : b ≠ Byte.hash := fun same => notHash (congrArg some same)
        rw [commentedLength, if_neg notBlank, if_neg notHash]
  rw [skip, triviaLength, nothing, Scanner.advance_zero]

/-- A comment has at least its hash, so the loop has moved past it before it goes on. -/
theorem advances_skipPass
    (g : Grammar)
    (s : Scanner) :
    Advances s fun more => g.skipPass more s := by
  cases g with
  | strict =>
      exact .stops _ fun _ => rfl
  | relaxed =>
      let t := s.skipWhile Byte.isBlank
      have blanks : s.Passes _ t := Scanner.passes_skipWhile s Byte.isBlank
      by_cases hash : t.peek = some Byte.hash
      · have comment : t.Passes _ (t.skipWhile inComment) := Scanner.passes_skipWhile t inComment
        have moved : t.rest.takeWhile inComment ≠ [] :=
          Scanner.takeWhile_ne_nil (by rw [hash]; rfl)
        simp only [skipPass, t, if_pos hash]
        exact advances_next (blanks.trans comment) (by simp [moved])
      · simp only [skipPass, t, if_neg hash]
        exact .stops _ fun _ => rfl

theorem skipPass_skip
    (g : Grammar) :
    (g.skipPass fun s => done (g.skip s)) = fun s => done (g.skip s) := by
  funext s
  cases g with
  | strict =>
      rfl
  | relaxed =>
      simp only [skipPass]
      split
      · rename_i hash
        rw [skip_comment hash, skip_blanks]
      · rename_i notHash
        rw [← skip_blanks, skip_of_not (Scanner.peek_skipWhile s _) notHash]

theorem loops_skip
    (g : Grammar) :
    Loops g.skipPass fun s => done (g.skip s) :=
  loops_of_advances g.advances_skipPass g.skipPass_skip (orderly_skip g)

/-! ## Strings -/

/-- So many hexadecimal digits. -/
def hexDigits : Nat → Rule
  | 0, s => done s
  | count + 1, s =>
    if s.peek.any Byte.isHexDigit then hexDigits count s.bump else missing s .hexDigit

/-- The rest of an escape after its backslash. -/
def escape : Rule := fun s =>
  match s.peek with
  | none => missing s .escapeCharacter
  | some b => if b = Byte.lowerU then hexDigits 4 s.bump else done s.bump

/-- One character of a string or one escape, or the closing quote. -/
def stringPass (more : Rule) : Rule := fun s =>
  match s.peek with
  | none => missing s .closingQuote
  | some b =>
    if b = Byte.quote then done s.bump
    else if b = Byte.backslash then (escape s.bump).andThen more
    else if Byte.isControl b then missing s .stringCharacter
    else more s.bump

theorem orderly_hexDigits :
    ∀ (count : Nat) (s : Scanner), Orderly s (hexDigits count s)
  | 0, s => (silent_done (.refl s)).orderly
  | count + 1, s => by
      unfold hexDigits
      split
      · exact .from (.advance s 1) (orderly_hexDigits count s.bump)
      · exact orderly_missing _ s

theorem orderly_escape
    (s : Scanner) :
    Orderly s (escape s) := by
  unfold escape
  split
  · exact orderly_missing _ s
  · split
    · exact .from (.advance s 1) (orderly_hexDigits 4 s.bump)
    · exact (silent_done (.advance s 1)).orderly

/-- The rest of a string token from a state on. -/
def bodyFrom (state : StringState) : Rule := fun s =>
  match state.scan s.rest with
  | (count, none) => done (s.advance count)
  | (count, some expected) => missing (s.advance count) expected

theorem bodyFrom_plain :
    bodyFrom .plain = stringBody := rfl

theorem bodyFrom_of_peek_none
    {s : Scanner}
    (peek : s.peek = none)
    (state : StringState) :
    bodyFrom state s = missing s state.expected := by
  have ahead : s.rest = [] := by simpa [Scanner.peek] using peek
  simp [bodyFrom, ahead, StringState.scan]

/-- One byte of a string token. -/
theorem bodyFrom_of_peek
    {s : Scanner} {b : UInt8}
    (peek : s.peek = some b)
    (state : StringState) :
    bodyFrom state s =
      match state.step b with
      | .error expected => missing s expected
      | .ok none => done s.bump
      | .ok (some next) => bodyFrom next s.bump := by
  obtain ⟨rest, ahead⟩ := Scanner.rest_of_peek peek
  have further (count : Nat) : s.advance (count + 1) = s.bump.advance count := by
    rw [Scanner.bump, Scanner.advance_advance, Nat.add_comm]
  unfold bodyFrom
  rw [ahead, StringState.scan]
  cases state.step b with
  | error expected =>
      simp
  | ok next =>
      cases next with
      | none =>
          rfl
      | some next =>
          simp only [Scanner.rest_bump ahead]
          cases next.scan rest with
          | mk count outcome =>
              cases outcome <;> simp [further]

theorem bodyFrom_digit
    {more : Nat} {next : StringState}
    (step : ∀ b, Byte.isHexDigit b → (StringState.hex more).step b = .ok (some next))
    (s : Scanner) :
    bodyFrom (.hex more) s =
      if s.peek.any Byte.isHexDigit then bodyFrom next s.bump else missing s .hexDigit := by
  cases peek : s.peek with
  | none =>
      rw [bodyFrom_of_peek_none peek]
      rfl
  | some b =>
      rw [bodyFrom_of_peek peek, Option.any_some]
      by_cases digit : Byte.isHexDigit b
      · rw [step b digit, if_pos digit]
      · simp [StringState.step, digit]

theorem bodyFrom_hex :
    ∀ (more : Nat) (s : Scanner),
      bodyFrom (.hex more) s = (hexDigits (more + 1) s).andThen stringBody
  | 0, s => by
      have step (b : UInt8) (digit : Byte.isHexDigit b) :
          (StringState.hex 0).step b = .ok (some .plain) := by simp [StringState.step, digit]
      rw [bodyFrom_digit step, hexDigits]
      by_cases digit : s.peek.any Byte.isHexDigit
      · rw [if_pos digit, if_pos digit, bodyFrom_plain, hexDigits, done_andThen]
      · rw [if_neg digit, if_neg digit]
        rfl
  | more + 1, s => by
      have step (b : UInt8) (digit : Byte.isHexDigit b) :
          (StringState.hex (more + 1)).step b = .ok (some (.hex more)) := by
        simp [StringState.step, digit]
      rw [bodyFrom_digit step, hexDigits]
      by_cases digit : s.peek.any Byte.isHexDigit
      · rw [if_pos digit, if_pos digit, bodyFrom_hex more]
      · rw [if_neg digit, if_neg digit]
        rfl

theorem bodyFrom_escaped
    (s : Scanner) :
    bodyFrom .escaped s = (escape s).andThen stringBody := by
  cases peek : s.peek with
  | none =>
      rw [bodyFrom_of_peek_none peek, escape, peek]
      rfl
  | some b =>
      rw [bodyFrom_of_peek peek, escape, peek]
      by_cases unicode : b = Byte.lowerU
      · simp [StringState.step, unicode, bodyFrom_hex]
      · simp [StringState.step, unicode, bodyFrom_plain]

theorem advances_stringPass
    (s : Scanner) :
    Advances s fun more => stringPass more s := by
  cases peek : s.peek with
  | none =>
      exact .stops (missing s .closingQuote) fun more => by simp [stringPass, peek]
  | some b =>
      have passes := Scanner.passes_bump peek
      have moved := List.cons_ne_nil b []
      simp only [stringPass, peek]
      split
      · exact .stops _ fun _ => rfl
      · split
        · exact advances_andThen passes moved (orderly_escape s.bump)
        · split
          · exact .stops _ fun _ => rfl
          · exact advances_next passes moved

/-- A string token is read by states, one byte at a time; a pass of the loop takes all the states
of an escape at once. -/
theorem stringPass_stringBody :
    stringPass stringBody = stringBody := by
  funext s
  rw [← bodyFrom_plain]
  cases peek : s.peek with
  | none =>
      rw [bodyFrom_of_peek_none peek, stringPass, peek]
      rfl
  | some b =>
      rw [bodyFrom_of_peek peek, stringPass, peek]
      by_cases quote : b = Byte.quote
      · simp [StringState.step, quote]
      by_cases backslash : b = Byte.backslash
      · subst backslash
        exact (bodyFrom_escaped s.bump).symm
      by_cases control : Byte.isControl b <;>
        simp [StringState.step, quote, backslash, control]

theorem loops_stringBody :
    Loops stringPass stringBody :=
  loops_of_advances advances_stringPass stringPass_stringBody fun s => (silent_stringBody s).orderly

/-! ## Containers -/

/-- One item of a container and what follows it. -/
def itemsPass
    (g : Grammar)
    (sep : Separation)
    (item : Rule)
    (more : Rule) : Rule := fun s =>
  (item s).andThen (g.afterItem sep more)

variable {g : Grammar} {sep : Separation} {item : Rule}

/-- After an item, more of them follow only past a comma. -/
theorem advances_afterItem
    (s : Scanner) :
    Advances s fun more => g.afterItem sep more s := by
  cases peek : (g.skip s).peek with
  | none =>
      exact .stops (missing (g.skip s) sep.afterItem) fun more => by simp [afterItem, peek]
  | some b =>
      have comma := (passes_skip g s).trans
        ((Scanner.passes_bump peek).trans (passes_skip g (g.skip s).bump))
      simp only [afterItem, peek]
      split
      · split
        · exact .stops _ fun _ => rfl
        · exact advances_next comma (by simp)
      · split
        · exact .stops _ fun _ => rfl
        · exact .stops _ fun _ => rfl

theorem advances_itemsPass
    (orderly : ∀ s, Orderly s (item s))
    (s : Scanner) :
    Advances s fun more => g.itemsPass sep item more s := by
  cases error : (item s).error with
  | some e =>
      exact .stops (item s) fun more => andThen_of_error error
  | none =>
      obtain ⟨text, passes⟩ := (orderly s).passes
      exact (advances_afterItem (item s).stop).after error passes

theorem loops_series
    (orderly : ∀ s, Orderly s (item s)) :
    Loops (g.itemsPass sep item) (g.series sep item) :=
  loops_of_advances (advances_itemsPass orderly) (funext fun s => (series_eq orderly s).symm)
    fun s => orderly_items orderly _ s

/-! ## Values -/

theorem consumes_valueOf
    (g : Grammar) :
    Consumes g.valueOf := by
  intro s f f' ahead
  cases peek : s.peek with
  | none =>
      simp [valueOf, peek]
  | some b =>
      obtain ⟨rest, some⟩ := Scanner.rest_of_peek peek
      have length : s.rest.length = rest.length + 1 := by rw [some, List.length_cons]
      -- a rule that moves on everywhere and is `f` where the round looks
      let f₀ : Rule := fun t => if t.rest.length < s.rest.length then f t else missing t .value
      have orderly (t : Scanner) : Orderly t (f₀ t) := by
        by_cases fewer : t.rest.length < s.rest.length
        · simp only [f₀, if_pos fewer]
          exact (ahead t fewer).1
        · simp only [f₀, if_neg fewer]
          exact orderly_missing .value t
      have agree : AgreeUpTo rest.length f₀ f := by
        intro t few
        simp only [f₀]
        rw [if_pos (by omega)]
      have agree' : AgreeUpTo rest.length f₀ f' := by
        intro t few
        rw [agree t few]
        exact (ahead t (by omega)).2
      rw [← valueOf_congr agree orderly (by omega), valueOf_congr agree' orderly (by omega)]

theorem unwinds_value
    (g : Grammar) :
    Unwinds g.valueOf g.value :=
  (consumes_valueOf g).unwinds (value_eq g).symm (orderly_value g)

end Grammar
end JsonDoc
