import JsonDoc.Proofs.Syntax.RelaxedDerivation
import JsonDoc.Proofs.Syntax.Token

/-!
# Relaxed tokens

The rules that read relaxed tokens, and the one that goes past blanks and comments, take only what
the relaxed lexicon derives.
-/

namespace JsonDoc
namespace Syntax

open Run Grammar

variable {s : Scanner} {text : List UInt8}

/-! ## Numbers -/

theorem takes_openDigits
    (expected : Expectation)
    (s : Scanner) :
    ∃ text, (∀ b ∈ text, Byte.isDigit b) ∧ Takes s (digits .relaxed expected s) text :=
  ⟨_, fun _ mem => List.all_eq_true.mp List.all_takeWhile _ mem, takes_skipWhile s _⟩

theorem takes_openFraction
    (h : (fraction .relaxed s).error = none) :
    ∃ text, IsOpenFraction text ∧ Takes s (fraction .relaxed s) text := by
  obtain ⟨text, isText, taken⟩ := takes_point (fun t _ => takes_openDigits _ t) h
  refine ⟨text, ?_, taken⟩
  rcases isText with rfl | ⟨ds, isDigits, rfl⟩
  · exact .none
  · exact .some isDigits

theorem takes_openExponent
    (h : (exponent .relaxed s).error = none) :
    ∃ text, IsOpenExponent text ∧ Takes s (exponent .relaxed s) text := by
  obtain ⟨text, isText, taken⟩ := takes_mark (fun t _ => takes_openDigits _ t) h
  refine ⟨text, ?_, taken⟩
  rcases isText with rfl | ⟨mark, ds, isMark, isDigits, rfl | ⟨sign, isSign, rfl⟩⟩
  · exact .none
  · exact .unsigned isMark isDigits
  · exact .signed isMark isSign isDigits

/-- Digits of another base after a zero and the mark of the base. -/
theorem takes_marked
    {mark : UInt8} {rest : List UInt8} {p : UInt8 → Bool} {expected : Expectation}
    (ahead : s.rest = Byte.zero :: mark :: rest)
    (h : (atLeastOne p expected (s.advance 2)).error = none) :
    ∃ digits, digits ≠ [] ∧ (∀ b ∈ digits, p b) ∧
      Takes s (atLeastOne p expected (s.advance 2)) (Byte.zero :: mark :: digits) := by
  have lead : Takes s (done (s.advance 2)) [Byte.zero, mark] := ⟨rest, ahead, rfl⟩
  obtain ⟨digits, some, all, taken⟩ := takes_atLeastOne h
  have both : Takes s ((done (s.advance 2)).andThen (atLeastOne p expected))
      ([Byte.zero, mark] ++ digits) := lead.andThen taken
  exact ⟨digits, some, all, by simpa using both⟩

/-- A literal of another base, where one starts. -/
theorem takes_radix
    {run : Run}
    (radix : radix? .relaxed s = some run)
    (h : run.error = none) :
    ∃ text, IsRelaxedMagnitude text ∧ Takes s run text := by
  cases radixRun_of_radix? radix with
  | hexadecimal ahead mark =>
      obtain ⟨digits, some, all, taken⟩ := takes_marked ahead h
      exact ⟨_, .hexadecimal mark some all, taken⟩
  | binary ahead mark =>
      obtain ⟨digits, some, all, taken⟩ := takes_marked ahead h
      exact ⟨_, .binary mark some all, taken⟩
  | @octal digit rest ahead isOctal =>
      have inside : s.bump.rest = digit :: rest := Scanner.rest_bump ahead
      have both : Takes s ((done s.bump).andThen fun t => done (t.skipWhile Byte.isOctalDigit))
          ([Byte.zero] ++ s.bump.rest.takeWhile Byte.isOctalDigit) :=
        (takes_bump (Scanner.peek_of_rest ahead)).andThen (takes_skipWhile _ _)
      refine ⟨_, .octal ?_ ?_, by simpa using both⟩
      · simp [inside, isOctal]
      · exact fun b mem => List.all_eq_true.mp List.all_takeWhile b mem

theorem takes_relaxedMagnitude
    (h : (magnitude .relaxed s).error = none) :
    ∃ text, IsRelaxedMagnitude text ∧ Takes s (magnitude .relaxed s) text := by
  unfold magnitude at h ⊢
  split
  · rename_i run radix
    simp only [radix] at h
    exact takes_radix radix h
  · rename_i decimal
    simp only [decimal, andThen_assoc] at h ⊢
    obtain ⟨ok, h⟩ := error_andThen_eq_none.mp h
    obtain ⟨okFraction, okExponent⟩ := error_andThen_eq_none.mp h
    obtain ⟨int, isInt, takenInt⟩ := takes_integer ok
    obtain ⟨frac, isFrac, takenFrac⟩ := takes_openFraction okFraction
    obtain ⟨exp, isExp, takenExp⟩ := takes_openExponent okExponent
    exact ⟨int ++ (frac ++ exp), .decimal isInt isFrac isExp,
      takenInt.andThen (takenFrac.andThen takenExp)⟩

theorem relaxedNumber_sound
    (h : (number .relaxed s).error = none) :
    ∃ text, IsRelaxedNumber text ∧ ReadsToken .number s (number .relaxed s) text := by
  obtain ⟨text, isText, reads⟩ := number_reads (fun _ => takes_relaxedMagnitude) h
  refine ⟨text, ?_, reads⟩
  rcases isText with mag | ⟨sign, mag, isSign, isMag, rfl⟩
  · exact .unsigned mag
  · exact .signed isSign isMag

/-! ## Words -/

/-- The word that stands ahead. -/
theorem isWord_ahead
    {b : UInt8}
    (peek : s.peek = some b)
    (start : Byte.isWordStart b) :
    ∃ more, s.rest.takeWhile Byte.isWordPart = b :: more ∧ IsWord (b :: more) := by
  obtain ⟨rest, ahead⟩ := Scanner.rest_of_peek peek
  refine ⟨rest.takeWhile Byte.isWordPart, ?_, .mk start ?_⟩
  · rw [ahead, List.takeWhile_cons_of_pos (isWordPart_of_isWordStart start)]
  · exact fun c mem => List.all_eq_true.mp List.all_takeWhile c mem

theorem readsToken_word
    (kind : EventKind)
    (s : Scanner) :
    ReadsToken kind s (token kind s (s.skipWhile Byte.isWordPart))
      (s.rest.takeWhile Byte.isWordPart) :=
  ⟨s.rest.dropWhile Byte.isWordPart, List.takeWhile_append_dropWhile.symm, rfl⟩

/-- The first byte of a literal leads it. -/
theorem ofByte_literal
    (l : Literal) :
    ∃ b more, l.word = b :: more ∧ Leading.ofByte b = .literal l := by
  cases l <;> exact ⟨_, _, rfl, rfl⟩

/-- A word whose first byte does not lead a literal is not that literal. -/
theorem ne_word_of_leading
    {b : UInt8} {more : List UInt8} {l : Literal}
    (h : Leading.ofByte b ≠ .literal l) :
    b :: more ≠ l.word := by
  obtain ⟨first, others, eq, leads⟩ := ofByte_literal l
  rw [eq]
  intro same
  cases same
  exact h leads

/-- A byte that leads a literal starts a word. -/
theorem isWordStart_of_leading
    {b : UInt8} {l : Literal}
    (h : Leading.ofByte b = .literal l) :
    Byte.isWordStart b := by
  have leads := Leading.leads_ofByte b
  rw [h] at leads
  exact leads.isWordStart

/-- Where a literal could stand, the whole word decides between it and a string. -/
theorem relaxedLiteral_sound
    {b : UInt8} {l : Literal}
    (peek : s.peek = some b)
    (leads : Leading.ofByte b = .literal l)
    (h : (literal .relaxed l s).error = none) :
    ReadsToken l.kind s (literal .relaxed l s) l.word ∨
      ∃ text, IsWord text ∧ (∀ l' : Literal, text ≠ l'.word) ∧
        ReadsToken .string s (literal .relaxed l s) text := by
  obtain ⟨more, ahead, isWord⟩ := isWord_ahead peek (isWordStart_of_leading leads)
  have word : s.textTo (s.skipWhile Byte.isWordPart) = b :: more := by
    rw [(Scanner.passes_skipWhile s Byte.isWordPart).textTo_eq, ahead]
  simp only [literal, word] at h ⊢
  by_cases same : b :: more = l.word
  · rw [if_pos same]
    have reads := readsToken_word l.kind s
    rw [ahead, same] at reads
    exact Or.inl reads
  · rw [if_neg same] at h ⊢
    split
    · rename_i short
      simp [short, fail] at h
    · have reads := readsToken_word .string s
      rw [ahead] at reads
      refine Or.inr ⟨b :: more, isWord, ?_, reads⟩
      intro l'
      by_cases other : l' = l
      · rw [other]
        exact same
      · refine ne_word_of_leading ?_
        rw [leads]
        intro eq
        cases eq
        exact other rfl

/-! ## Blanks and comments -/

theorem Ending.blank
    {b : UInt8}
    (blank : Byte.isBlank b)
    (h : Ending text) :
    Ending (b :: text) := by
  cases h with
  | closed trivia =>
      exact .closed (.blank blank trivia)
  | @comment before line trivia isLine =>
      have trivia : Trivia (b :: before) := .blank blank trivia
      exact .comment trivia isLine

theorem Ending.afterComment
    {line : List UInt8}
    (isLine : Line line)
    (h : Ending text) :
    Ending (Byte.hash :: (line ++ Byte.lineFeed :: text)) := by
  cases h with
  | closed trivia =>
      exact .closed (.comment isLine trivia)
  | @comment before last trivia isLast =>
      have trivia : Trivia (Byte.hash :: (line ++ Byte.lineFeed :: before)) :=
        .comment isLine trivia
      simpa using Ending.comment trivia isLast

/-- The text is an ending, and trivia unless it is the whole of what was ahead. -/
def Skipped
    (text rest : List UInt8) : Prop :=
  Ending text ∧ (rest ≠ [] → Trivia text)

/-- What is gone past is blanks and comments. Inside a comment this holds of the comment from its
start on. -/
theorem commentedLength_sound
    (bytes : List UInt8) :
    Skipped (bytes.take (commentedLength false bytes))
        (bytes.drop (commentedLength false bytes)) ∧
      ∀ line, Line line →
        Skipped (Byte.hash :: (line ++ bytes.take (commentedLength true bytes)))
          (bytes.drop (commentedLength true bytes)) := by
  induction bytes with
  | nil =>
      refine ⟨⟨.closed .nil, fun _ => .nil⟩, ?_⟩
      intro line isLine
      refine ⟨?_, by simp⟩
      simpa using Ending.comment .nil isLine
  | cons b rest ih =>
      obtain ⟨outside, inside⟩ := ih
      constructor
      · by_cases blank : Byte.isBlank b
        · simp only [commentedLength, blank, if_true, Nat.add_comm 1, List.take_succ_cons,
            List.drop_succ_cons]
          exact ⟨outside.1.blank blank, fun more => .blank blank (outside.2 more)⟩
        · by_cases hash : b = Byte.hash
          · subst hash
            have comment := inside [] (by simp [Line])
            simpa [commentedLength, blank, Nat.add_comm 1] using comment
          · have none : commentedLength false (b :: rest) = 0 := by
              simp [commentedLength, blank, hash]
            rw [none, List.take_zero]
            exact ⟨.closed .nil, fun _ => .nil⟩
      · intro line isLine
        by_cases feed : b = Byte.lineFeed
        · subst feed
          have closed : commentedLength true (Byte.lineFeed :: rest) =
              commentedLength false rest + 1 := by
            simp [commentedLength, Nat.add_comm 1]
          rw [closed, List.take_succ_cons, List.drop_succ_cons]
          exact ⟨outside.1.afterComment isLine, fun more => .comment isLine (outside.2 more)⟩
        · have goesOn : commentedLength true (b :: rest) = commentedLength true rest + 1 := by
            simp [commentedLength, bne_iff_ne.mpr feed, Nat.add_comm 1]
          have longer : Line (line ++ [b]) := by
            intro c mem
            rcases List.mem_append.mp mem with mem | mem
            · exact isLine c mem
            · rw [List.mem_singleton.mp mem]
              exact feed
          rw [goesOn, List.take_succ_cons, List.drop_succ_cons]
          simpa using inside (line ++ [b]) longer

end Syntax
end JsonDoc
