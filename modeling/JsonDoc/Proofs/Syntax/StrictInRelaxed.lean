import JsonDoc.Proofs.Syntax.RelaxedComplete

/-!
# Standard JSON in the relaxed dialect

The relaxed dialect is a conservative extension of standard JSON: a document that the strict grammar
reads to its end is read to its end by the relaxed one, with the same events, under every limit of
depth (`read_relaxed_of_strict`).

The rules for leaves differ. A relaxed word or number may go on where a strict one has ended, and a
relaxed comment may start there. In a strict document neither happens, since every token is followed
by a blank, a comma, a colon, a closing byte or the end. So the two runs are compared where the
strict one succeeds and what follows ends a token, `Conserves`.
-/

namespace JsonDoc
namespace Syntax

open Run Grammar

/-- Where the first rule succeeds it did not start at a comment, and if what follows ends a token,
the second rule does the same. -/
structure Conserves (strict relaxed : Rule) : Prop where
  begins : ∀ s, (strict s).error = none → s.peek ≠ some Byte.hash
  same : ∀ s, (strict s).error = none → Follows (strict s).stop.rest → relaxed s = strict s

variable {s t : Scanner} {text : List UInt8} {sep : Separation}
  {item item' more more' value value' : Rule}

/-! ## Blanks -/

/-- Blanks are all that the relaxed dialect goes past, if no comment follows them. -/
theorem commentedLength_blanks
    (bytes : List UInt8)
    (noComment : (bytes.drop (triviaLength .strict bytes)).head? ≠ some Byte.hash) :
    commentedLength false bytes = triviaLength .strict bytes := by
  induction bytes with
  | nil =>
      rfl
  | cons b rest ih =>
      by_cases blank : Byte.isBlank b
      · have longer : triviaLength .strict (b :: rest) = triviaLength .strict rest + 1 := by
          simp [triviaLength, blank]
        rw [longer, List.drop_succ_cons] at noComment
        rw [commentedLength, if_pos blank, ih noComment, longer, Nat.add_comm]
      · have none : triviaLength .strict (b :: rest) = 0 := by
          simp [triviaLength, blank]
        have notHash : b ≠ Byte.hash := by
          rintro rfl
          simp [none] at noComment
        rw [none, commentedLength, if_neg blank, if_neg notHash]

theorem skip_conserved
    (noComment : (strict.skip s).peek ≠ some Byte.hash) :
    relaxed.skip s = strict.skip s :=
  congrArg s.advance (commentedLength_blanks s.rest noComment)

/-- What blanks and then a token are followed by ends a token before them. -/
theorem follows_of_skip
    (follows : Follows (strict.skip s).rest) :
    Follows s.rest := by
  by_cases nil : (strict.skip s).rest = []
  · obtain ⟨text, blanks, passes⟩ := sound_strict.last s
    rw [passes.rest, nil, List.append_nil]
    exact follows_of_blanks blanks
  · obtain ⟨text, blanks, passes⟩ := sound_strict.trivia nil
    rw [passes.rest]
    exact follows_append (follows_of_blanks blanks) follows

/-! ## Tokens -/

theorem IsMagnitude.relaxed
    (h : IsMagnitude text) :
    IsRelaxedMagnitude text := by
  cases h with
  | mk int frac exp =>
      exact .decimal int frac.isOpen exp.isOpen

theorem IsNumber.relaxed
    (h : IsNumber text) :
    IsRelaxedNumber text := by
  cases h with
  | positive magnitude =>
      exact .unsigned magnitude.relaxed
  | negative magnitude =>
      exact .signed (by decide) magnitude.relaxed

theorem number_conserved
    (ok : (number .strict s).error = none)
    (follows : Follows (number .strict s).stop.rest) :
    number .relaxed s = number .strict s := by
  obtain ⟨text, isNumber, rest, ahead, eq⟩ := number_sound ok
  have left : (s.advance text.length).rest = rest := Scanner.rest_advance ahead
  rw [eq] at follows ⊢
  exact relaxedNumber_eq ahead isNumber.relaxed (left ▸ follows)

theorem literal_conserved
    {l : Literal}
    (ok : (literal .strict l s).error = none)
    (follows : Follows (literal .strict l s).stop.rest) :
    literal .relaxed l s = literal .strict l s := by
  obtain ⟨rest, ahead, eq⟩ := literal_sound ok
  have left : (s.advance l.word.length).rest = rest := Scanner.rest_advance ahead
  rw [eq] at follows ⊢
  exact relaxedLiteral_eq l ahead (left ▸ follows).delimited

/-- A strict key is a string. -/
theorem key_conserved
    (ok : (key .strict s).error = none) :
    s.peek ≠ some Byte.hash ∧ key .relaxed s = key .strict s := by
  simp only [key] at ok ⊢
  split at ok
  · rename_i quote
    rw [quote, if_pos rfl, if_pos rfl]
    exact ⟨by decide, rfl⟩
  · simp [missing, fail] at ok

/-! ## Items -/

/-- After an item a comma or the closing byte is found, with only blanks before it. -/
theorem afterItem_conserved
    (closes : Closes sep)
    (h : ∀ t, (more t).error = none → t.peek ≠ some Byte.hash ∧ more' t = more t)
    (ok : (strict.afterItem sep more s).error = none) :
    Follows s.rest ∧ relaxed.afterItem sep more' s = strict.afterItem sep more s := by
  have settle {b : UInt8} (separates : Separates b) (peek : (strict.skip s).peek = some b) :
      Follows s.rest ∧ relaxed.skip s = strict.skip s := by
    obtain ⟨rest, ahead⟩ := Scanner.rest_of_peek peek
    refine ⟨follows_of_skip (ahead ▸ separates.follows rest), skip_conserved ?_⟩
    rw [peek]
    exact fun hash => separates.notHash (Option.some.inj hash)
  by_cases comma : (strict.skip s).peek = some Byte.comma
  · obtain ⟨follows, skipped⟩ := settle separates_comma comma
    have notClose : (strict.skip (strict.skip s).bump).peek ≠ some sep.close := by
      intro close
      simp [afterItem, comma, close, fail] at ok
    rw [afterItem_comma more comma notClose] at ok ⊢
    obtain ⟨noComment, same⟩ := h _ ok
    have skippedNext := skip_conserved noComment
    refine ⟨follows, ?_⟩
    have notClose' : (relaxed.skip (relaxed.skip s).bump).peek ≠ some sep.close := by
      rw [skipped, skippedNext]
      exact notClose
    rw [afterItem_comma more' (by rw [skipped, comma]) notClose', skipped, skippedNext, same]
  · have close : (strict.skip s).peek = some sep.close := by
      unfold afterItem at ok
      simp only at ok
      cases peek : (strict.skip s).peek with
      | none =>
          simp [peek, missing, fail] at ok
      | some b =>
          by_cases close : b = sep.close
          · rw [close]
          · have notComma : b ≠ Byte.comma := fun same => comma (same ▸ peek)
            simp [peek, notComma, close, missing, fail] at ok
    obtain ⟨follows, skipped⟩ := settle closes.separates close
    refine ⟨follows, ?_⟩
    rw [afterItem_close more closes close, afterItem_close more' closes (by rw [skipped, close]),
      skipped]

/-- An item that is followed by more items or the closing byte. -/
theorem item_conserved
    (closes : Closes sep)
    (h : Conserves item item')
    (rest : ∀ t, (more t).error = none → t.peek ≠ some Byte.hash ∧ more' t = more t)
    (ok : ((item s).andThen (strict.afterItem sep more)).error = none) :
    s.peek ≠ some Byte.hash ∧ (item' s).andThen (relaxed.afterItem sep more') =
      (item s).andThen (strict.afterItem sep more) := by
  obtain ⟨okItem, okAfter⟩ := error_andThen_eq_none.mp ok
  obtain ⟨follows, after⟩ := afterItem_conserved closes rest okAfter
  refine ⟨h.begins s okItem, ?_⟩
  rw [h.same s okItem follows]
  exact andThen_congr fun _ => after

theorem items_conserved
    (closes : Closes sep)
    (h : Conserves item item') :
    ∀ (bound : Nat) (s : Scanner), (strict.items sep item bound s).error = none →
      s.peek ≠ some Byte.hash ∧
        relaxed.items sep item' bound s = strict.items sep item bound s := by
  intro bound
  induction bound with
  | zero =>
      refine fun s => item_conserved closes h ?_
      intro t ok
      simp [missing, fail] at ok
  | succ bound ih =>
      exact fun s => item_conserved closes h ih

theorem itemsOrNone_conserved
    (closes : Closes sep)
    (h : Conserves item item')
    (ok : (strict.itemsOrNone sep item s).error = none) :
    relaxed.itemsOrNone sep item' s = strict.itemsOrNone sep item s := by
  simp only [itemsOrNone] at ok ⊢
  by_cases close : (strict.skip s).peek = some sep.close
  · have skipped : relaxed.skip s = strict.skip s := by
      refine skip_conserved ?_
      rw [close]
      exact fun hash => closes.separates.notHash (Option.some.inj hash)
    rw [skipped, if_pos close, if_pos close]
  · rw [if_neg close] at ok
    obtain ⟨noComment, same⟩ := items_conserved closes h _ _ ok
    rw [skip_conserved noComment, if_neg close, if_neg close, same]

theorem container_conserved
    (closes : Closes sep)
    (h : Conserves item item')
    (brackets : Brackets)
    (ok : (strict.container brackets sep item s).error = none) :
    relaxed.container brackets sep item' s = strict.container brackets sep item s := by
  obtain ⟨_, okInside⟩ := error_andThen_eq_none.mp ok
  obtain ⟨okItems, _⟩ := error_andThen_eq_none.mp okInside
  refine andThen_congr fun _ => ?_
  rw [itemsOrNone_conserved closes h okItems]

/-! ## Values -/

theorem conserves_member
    (h : Conserves value value') :
    Conserves (strict.member value) (relaxed.member value') where
  begins := fun s ok => (key_conserved (error_andThen_eq_none.mp ok).1).1
  same := by
    intro s ok follows
    obtain ⟨okKey, ok⟩ := error_andThen_eq_none.mp ok
    obtain ⟨okColon, okValue⟩ := error_andThen_eq_none.mp ok
    have colon := peek_of_expect okColon
    have skipped : relaxed.skip (key .strict s).stop = strict.skip (key .strict s).stop := by
      refine skip_conserved ?_
      rw [colon]
      exact fun hash => separates_colon.notHash (Option.some.inj hash)
    rw [member, stop_andThen okKey, stop_andThen okColon] at follows
    rw [member, (key_conserved okKey).2]
    refine andThen_congr fun _ => ?_
    rw [skipped]
    refine andThen_congr fun _ => ?_
    rw [skip_conserved (h.begins _ okValue), h.same _ okValue follows]

/-- The first byte decides between the same rules, except for bare words. -/
theorem conserves_valueOf
    (h : Conserves value value') :
    Conserves (strict.valueOf value) (relaxed.valueOf value') where
  begins := by
    intro s ok hash
    have other : Leading.ofByte Byte.hash = .other := rfl
    simp [valueOf, hash, other, unknown, missing, fail] at ok
  same := by
    intro s ok follows
    unfold valueOf at ok follows ⊢
    cases peek : s.peek with
    | none =>
        simp [peek, missing, fail] at ok
    | some b =>
        simp only [peek] at ok follows ⊢
        cases kind : Leading.ofByte b with
        | number =>
            simp only [kind] at ok follows ⊢
            exact number_conserved ok follows
        | string =>
            rfl
        | literal l =>
            simp only [kind] at ok follows ⊢
            exact literal_conserved ok follows
        | array =>
            simp only [kind] at ok ⊢
            exact container_conserved closes_elements h arrayBrackets ok
        | object =>
            simp only [kind] at ok ⊢
            exact container_conserved closes_members (conserves_member h) objectBrackets ok
        | other =>
            simp [kind, unknown, missing, fail] at ok

theorem conserves_nested
    (levels : Nat) :
    Conserves (strict.nested levels) (relaxed.nested levels) := by
  induction levels with
  | zero =>
      refine conserves_valueOf ⟨?_, fun _ _ _ => rfl⟩
      intro s ok
      simp [missing, fail] at ok
  | succ levels ih =>
      exact conserves_valueOf ih

/-! ## Documents -/

variable {input : List UInt8} {maxDepth : Option Nat}

/-- A strict run over a whole input is a relaxed run. -/
theorem read_conserved
    (ok : (strict.read maxDepth input).error = none)
    (whole : (strict.read maxDepth input).stop.position = input.length) :
    relaxed.read maxDepth input = strict.read maxDepth input := by
  let first := strict.skip (Scanner.start input maxDepth)
  let last := strict.skip (strict.value first).stop
  have values : Conserves (strict.nested first.rest.length) (relaxed.nested first.rest.length) :=
    conserves_nested _
  obtain ⟨okValue, _⟩ := error_andThen_eq_none.mp ok
  have stop : (strict.read maxDepth input).stop = last := stop_andThen okValue
  have ended : last.rest = [] := by
    have length := (orderly_read strict maxDepth input).length_stop
    rw [stop] at length whole
    simp only [Scanner.length, Scanner.start, whole] at length
    exact List.eq_nil_of_length_eq_zero (by omega)
  have nothing : Follows last.rest := by
    rw [ended]
    simp [Follows]
  have noComment : last.peek ≠ some Byte.hash := by
    simp [Scanner.peek, ended]
  have follows : Follows (strict.value first).stop.rest := follows_of_skip nothing
  have skipped : relaxed.skip (Scanner.start input maxDepth) = first :=
    skip_conserved (values.begins first okValue)
  have skippedLast : relaxed.skip (strict.value first).stop = last := skip_conserved noComment
  have same : relaxed.value first = strict.value first := values.same first okValue follows
  rw [Grammar.read, Grammar.read, skipped, same]
  exact andThen_congr fun _ => congrArg done skippedLast

/-- The relaxed dialect is a conservative extension of standard JSON. What the strict grammar reads
to its end, the relaxed one reads in the same run: with the same events, without an error, to the
end. So an input that is a strict document is the same tree in the relaxed dialect. -/
theorem read_relaxed_of_strict
    (maxDepth : Option Nat)
    (input : List UInt8) :
    ((strict.read maxDepth input).error = none →
      (strict.read maxDepth input).stop.position = input.length →
        relaxed.read maxDepth input = strict.read maxDepth input) ∧
      ∀ tree, Document.readTree .strict ⟨maxDepth⟩ input = .ok tree →
        Document.readTree .relaxed ⟨maxDepth⟩ input = .ok tree := by
  refine ⟨read_conserved, ?_⟩
  intro tree h
  obtain ⟨ok, _, whole, _⟩ := read_of_readTree h
  have same := read_conserved ok whole
  unfold Document.readTree Document.readFront at h ⊢
  rw [same]
  exact h

/-- The bytes `[0,{"a":-0.5e1}, true ]`: a zero that starts no literal of another base, and a
literal that is a whole word. -/
def strictSample : List UInt8 :=
  [0x5B, 0x30, 0x2C, 0x7B, 0x22, 0x61, 0x22, 0x3A, 0x2D, 0x30, 0x2E, 0x35, 0x65, 0x31, 0x7D, 0x2C,
    0x20, 0x74, 0x72, 0x75, 0x65, 0x20, 0x5D]

theorem read_relaxed_of_strict_sample :
    ((strict.read (some 2) strictSample).error = none ∧
        (strict.read (some 2) strictSample).stop.position = strictSample.length ∧
        relaxed.read (some 2) strictSample = strict.read (some 2) strictSample) ∧
      ∃ tree, Document.readTree .strict ⟨some 2⟩ strictSample = .ok tree ∧
        Document.readTree .relaxed ⟨some 2⟩ strictSample = .ok tree := by
  have ok : (strict.read (some 2) strictSample).error = none := by decide
  have whole : (strict.read (some 2) strictSample).stop.position = strictSample.length := by decide
  obtain ⟨runs, trees⟩ := read_relaxed_of_strict (some 2) strictSample
  exact ⟨⟨ok, whole, runs ok whole⟩, _, rfl, trees _ rfl⟩

end Syntax
end JsonDoc
