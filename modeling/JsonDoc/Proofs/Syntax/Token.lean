import JsonDoc.Proofs.Syntax.Completeness

/-!
# Tokens

What the rules for tokens take, as far as both dialects agree: integers, strings and the end of a
number. A rule takes a text if it goes past exactly the bytes of the text. The fractions, the
exponents and the numbers of a dialect follow from what its rule for digits takes.
-/

namespace JsonDoc

namespace Scanner

variable {s : Scanner} {text rest : List UInt8} {p : UInt8 → Bool}

theorem skipWhile_eq
    (h : s.rest = text ++ rest)
    (all : ∀ b ∈ text, p b)
    (ends : ∀ b, rest.head? = some b → p b = false) :
    s.skipWhile p = s.advance text.length := by
  have none : rest.takeWhile p = [] := by
    cases rest with
    | nil =>
        rfl
    | cons b rest =>
        simp [ends b rfl]
  rw [skipWhile, h, List.takeWhile_append_of_pos all, none, List.append_nil]

theorem bumpIf_of_peek
    {b : UInt8}
    (h : s.peek = some b)
    (hp : p b) :
    s.bumpIf p = s.bump := by
  simp [bumpIf, h, hp]

theorem bumpIf_of_not
    (h : ∀ b, s.rest.head? = some b → p b = false) :
    s.bumpIf p = s := by
  cases hr : s.rest.head? with
  | none =>
      simp [bumpIf, peek, hr]
  | some b =>
      simp [bumpIf, peek, hr, h b hr]

end Scanner

namespace Run

/-- The run goes past the text that stands ahead, and nothing else. -/
def Takes (s : Scanner) (run : Run) (text : List UInt8) : Prop :=
  ∃ rest, s.rest = text ++ rest ∧ run = done (s.advance text.length)

variable {s : Scanner} {run : Run} {next : Rule} {a b : List UInt8}

theorem takes_nil
    (s : Scanner) :
    Takes s (done s) [] := ⟨s.rest, rfl, by simp⟩

theorem Takes.andThen
    (h : Takes s run a)
    (k : Takes run.stop (next run.stop) b) :
    Takes s (run.andThen next) (a ++ b) := by
  obtain ⟨rest, ahead, rfl⟩ := h
  obtain ⟨rest', ahead', taken⟩ := k
  have left : (s.advance a.length).rest = rest := Scanner.rest_advance ahead
  have ahead' : rest = b ++ rest' := by rw [← left]; exact ahead'
  refine ⟨rest', by rw [ahead, ahead', List.append_assoc], ?_⟩
  rw [done_andThen, List.length_append, ← Scanner.advance_advance]
  exact taken

theorem takes_skipWhile
    (s : Scanner)
    (p : UInt8 → Bool) :
    Takes s (done (s.skipWhile p)) (s.rest.takeWhile p) :=
  ⟨s.rest.dropWhile p, List.takeWhile_append_dropWhile.symm, rfl⟩

theorem takes_bump
    {byte : UInt8}
    (h : s.peek = some byte) :
    Takes s (done s.bump) [byte] := by
  obtain ⟨rest, h⟩ := Scanner.rest_of_peek h
  exact ⟨rest, by simpa using h, rfl⟩

end Run

namespace Syntax

open Run Grammar

theorem isWordPart_of_isDigit
    {b : UInt8}
    (h : Byte.isDigit b) :
    Byte.isWordPart b := by
  simp [Byte.isWordPart, h]

theorem isWordPart_of_isExponentMark
    {b : UInt8}
    (h : Byte.isExponentMark b) :
    Byte.isWordPart b := by
  simp only [Byte.isExponentMark, Bool.or_eq_true, beq_iff_eq] at h
  rcases h with rfl | rfl <;> decide

/-- The mark of an exponent ends the digits before it and is no point. -/
theorem ends_of_isExponentMark
    {b : UInt8}
    (h : Byte.isExponentMark b) :
    Byte.isDigit b = false ∧ b ≠ Byte.dot := by
  simp only [Byte.isExponentMark, Bool.or_eq_true, beq_iff_eq] at h
  rcases h with rfl | rfl <;> decide

theorem isSign_of_isDigit
    {b : UInt8}
    (h : Byte.isDigit b) :
    Byte.isSign b = false := by
  cases sign : Byte.isSign b with
  | false =>
      rfl
  | true =>
      simp only [Byte.isSign, Bool.or_eq_true, beq_iff_eq] at sign
      rcases sign with rfl | rfl <;> exact absurd h (by decide)

/-- What ends a number begins with no byte of a class of which words are made. -/
theorem Delimited.not_part
    {rest : List UInt8} {p : UInt8 → Bool}
    (h : Delimited rest)
    (part : ∀ b, p b → Byte.isWordPart b) :
    ∀ b, rest.head? = some b → p b = false := by
  intro b hb
  cases holds : p b with
  | false =>
      rfl
  | true =>
      have := (h b hb).1
      simp [part b holds] at this

theorem Delimited.not_isDigit
    {rest : List UInt8}
    (h : Delimited rest) :
    ∀ b, rest.head? = some b → Byte.isDigit b = false :=
  h.not_part fun _ => isWordPart_of_isDigit

/-! ## Numbers -/

variable {s : Scanner} {text rest : List UInt8}

theorem takes_integer
    (h : (integer s).error = none) :
    ∃ text, IsInteger text ∧ Takes s (integer s) text := by
  unfold integer at h ⊢
  cases peek : s.peek with
  | none =>
      simp [peek, missing, fail] at h
  | some b =>
      simp only [peek] at h ⊢
      split
      · rename_i eq
        subst eq
        exact ⟨_, .zero, takes_bump peek⟩
      · rename_i notZero
        rw [if_neg notZero] at h
        split
        · rename_i digit
          obtain ⟨rest, ahead⟩ := Scanner.rest_of_peek peek
          refine ⟨b :: rest.takeWhile Byte.isDigit, ?_, ?_⟩
          · refine .positive digit ?_
            exact fun c mem => List.all_eq_true.mp List.all_takeWhile c mem
          · have first := isDigit_of_isPositiveDigit digit
            simpa [ahead, first] using takes_skipWhile s Byte.isDigit
        · rename_i notDigit
          simp [notDigit, missing, fail] at h

theorem atLeastOne_eq
    {p : UInt8 → Bool}
    (expected : Expectation)
    (h : s.rest = text ++ rest)
    (nonempty : text ≠ [])
    (all : ∀ b ∈ text, p b)
    (ends : ∀ b, rest.head? = some b → p b = false) :
    atLeastOne p expected s = done (s.advance text.length) := by
  obtain ⟨first, more, rfl⟩ := List.exists_cons_of_ne_nil nonempty
  have peek : s.peek = some first := Scanner.peek_of_rest h
  have taken := Scanner.skipWhile_eq h all ends
  simp [atLeastOne, peek, all first List.mem_cons_self, taken]

theorem takes_atLeastOne
    {p : UInt8 → Bool} {expected : Expectation}
    (h : (atLeastOne p expected s).error = none) :
    ∃ text, text ≠ [] ∧ (∀ b ∈ text, p b) ∧ Takes s (atLeastOne p expected s) text := by
  simp only [atLeastOne] at h ⊢
  split
  · rename_i first
    refine ⟨_, Scanner.takeWhile_ne_nil first, ?_, takes_skipWhile s _⟩
    exact fun c mem => List.all_eq_true.mp List.all_takeWhile c mem
  · rename_i first
    simp [first, missing, fail] at h

section Digits

variable {g : Grammar} {P : List UInt8 → Prop}

/-- A fraction is a point with digits of the dialect, or nothing. -/
theorem takes_point
    (each : ∀ t : Scanner, (g.digits .fractionDigit t).error = none →
      ∃ text, P text ∧ Takes t (g.digits .fractionDigit t) text)
    (h : (fraction g s).error = none) :
    ∃ text, (text = [] ∨ ∃ ds, P ds ∧ text = Byte.dot :: ds) ∧ Takes s (fraction g s) text := by
  unfold fraction at h ⊢
  split
  · rename_i dot
    rw [if_pos dot] at h
    obtain ⟨ds, isDigits, taken⟩ := each _ h
    have both : Takes s ((done s.bump).andThen (g.digits .fractionDigit)) ([Byte.dot] ++ ds) :=
      (takes_bump dot).andThen taken
    exact ⟨Byte.dot :: ds, Or.inr ⟨ds, isDigits, rfl⟩, by simpa using both⟩
  · exact ⟨[], Or.inl rfl, takes_nil s⟩

/-- An exponent is a mark with digits of the dialect after an optional sign, or nothing. -/
theorem takes_mark
    (each : ∀ t : Scanner, (g.digits .exponentDigit t).error = none →
      ∃ text, P text ∧ Takes t (g.digits .exponentDigit t) text)
    (h : (exponent g s).error = none) :
    ∃ text, (text = [] ∨ ∃ mark ds, Byte.isExponentMark mark ∧ P ds ∧
        (text = mark :: ds ∨ ∃ sign, Byte.isSign sign ∧ text = mark :: sign :: ds)) ∧
      Takes s (exponent g s) text := by
  unfold exponent at h ⊢
  split
  · rename_i isMark
    rw [if_pos isMark] at h
    obtain ⟨m, peek, hm⟩ : ∃ m, s.peek = some m ∧ Byte.isExponentMark m := by
      simpa [Option.any_eq_true] using isMark
    by_cases signed : s.bump.peek.any Byte.isSign
    · obtain ⟨sign, peekSign, isSign⟩ : ∃ b, s.bump.peek = some b ∧ Byte.isSign b := by
        simpa [Option.any_eq_true] using signed
      rw [Scanner.bumpIf_of_peek peekSign isSign] at h ⊢
      obtain ⟨ds, isDigits, taken⟩ := each _ h
      have inner : Takes s.bump ((done s.bump.bump).andThen (g.digits .exponentDigit))
          ([sign] ++ ds) := (takes_bump peekSign).andThen taken
      have outer : Takes s ((done s.bump).andThen fun t =>
          (done t.bump).andThen (g.digits .exponentDigit)) ([m] ++ ([sign] ++ ds)) :=
        (takes_bump peek).andThen inner
      exact ⟨m :: sign :: ds, Or.inr ⟨m, ds, hm, isDigits, Or.inr ⟨sign, isSign, rfl⟩⟩,
        by simpa using outer⟩
    · have none : s.bump.bumpIf Byte.isSign = s.bump := by
        simp [Scanner.bumpIf, signed]
      rw [none] at h ⊢
      obtain ⟨ds, isDigits, taken⟩ := each _ h
      have both : Takes s ((done s.bump).andThen (g.digits .exponentDigit)) ([m] ++ ds) :=
        (takes_bump peek).andThen taken
      exact ⟨m :: ds, Or.inr ⟨m, ds, hm, isDigits, Or.inl rfl⟩, by simpa using both⟩
  · exact ⟨[], Or.inl rfl, takes_nil s⟩

variable {ds : List UInt8}

/-- A point with the digits that the dialect takes after it is a fraction. -/
theorem fraction_of_digits
    (h : s.rest = Byte.dot :: ds ++ rest)
    (taken : digits g .fractionDigit s.bump = done (s.bump.advance ds.length)) :
    fraction g s = done (s.advance (Byte.dot :: ds).length) := by
  have peek : s.peek = some Byte.dot := Scanner.peek_of_rest h
  rw [fraction, if_pos peek, taken, Scanner.bump, Scanner.advance_advance, List.length_cons,
    Nat.add_comm]

theorem fraction_none
    (ends : ∀ b, s.rest.head? = some b → b ≠ Byte.dot) :
    fraction g s = done s := by
  have noDot : s.peek ≠ some Byte.dot := fun dot => ends _ dot rfl
  simp [fraction, noDot]

/-- A mark with the digits that the dialect takes after it, which begin with no sign, is an
exponent. -/
theorem exponent_of_digits
    {mark : UInt8}
    (h : s.rest = mark :: ds ++ rest)
    (isMark : Byte.isExponentMark mark)
    (noSign : ∀ b, (ds ++ rest).head? = some b → Byte.isSign b = false)
    (taken : digits g .exponentDigit s.bump = done (s.bump.advance ds.length)) :
    exponent g s = done (s.advance (mark :: ds).length) := by
  have peek : s.peek = some mark := Scanner.peek_of_rest h
  have ahead : s.bump.rest = ds ++ rest := Scanner.rest_bump h
  have unsigned : s.bump.bumpIf Byte.isSign = s.bump :=
    Scanner.bumpIf_of_not (by rw [ahead]; exact noSign)
  rw [exponent, if_pos (by simpa [peek] using isMark), unsigned, taken, Scanner.bump,
    Scanner.advance_advance, List.length_cons, Nat.add_comm]

/-- So is a mark with a sign and digits. -/
theorem exponent_of_signed
    {mark sign : UInt8}
    (h : s.rest = mark :: sign :: ds ++ rest)
    (isMark : Byte.isExponentMark mark)
    (isSign : Byte.isSign sign)
    (taken : digits g .exponentDigit s.bump.bump = done (s.bump.bump.advance ds.length)) :
    exponent g s = done (s.advance (mark :: sign :: ds).length) := by
  have peek : s.peek = some mark := Scanner.peek_of_rest h
  have ahead : s.bump.rest = sign :: (ds ++ rest) := Scanner.rest_bump h
  have signed := Scanner.bumpIf_of_peek (Scanner.peek_of_rest ahead) isSign
  rw [exponent, if_pos (by simpa [peek] using isMark), signed, taken, Scanner.bump, Scanner.bump,
    Scanner.advance_advance, Scanner.advance_advance, List.length_cons, List.length_cons]
  congr 2
  omega

theorem exponent_none
    (ends : Delimited s.rest) :
    exponent g s = done s := by
  have noMark : ¬ s.peek.any Byte.isExponentMark := by
    intro isMark
    obtain ⟨m, peek, hm⟩ : ∃ m, s.peek = some m ∧ Byte.isExponentMark m := by
      simpa [Option.any_eq_true] using isMark
    have := (ends m peek).1
    simp [isWordPart_of_isExponentMark hm] at this
  simp [exponent, noMark]

end Digits

theorem numberEnd_eq
    {start : Scanner}
    (ends : Delimited s.rest) :
    numberEnd start s = token .number start s := by
  have free : ¬ s.peek.any (fun b => Byte.isWordPart b || b == Byte.dot) := by
    intro bad
    obtain ⟨b, peek, hb⟩ : ∃ b, s.peek = some b ∧ (Byte.isWordPart b ∨ b = Byte.dot) := by
      simpa [Option.any_eq_true] using bad
    rcases hb with hb | hb
    · simp [(ends b peek).1] at hb
    · exact (ends b peek).2 hb
  simp [numberEnd, free]

theorem delimited_of_numberEnd
    {start : Scanner}
    (h : (numberEnd start s).error = none) :
    Delimited s.rest := by
  unfold numberEnd at h
  split at h
  · simp [fail] at h
  · rename_i free
    intro b hb
    have peek : s.peek = some b := hb
    simpa [peek] using free

section Magnitude

variable {g : Grammar} {P : List UInt8 → Prop}

theorem number_of_takes
    {t : Scanner} {sign : List UInt8}
    (each : ∀ t : Scanner, (magnitude g t).error = none →
      ∃ text, P text ∧ Takes t (magnitude g t) text)
    (signed : Takes s (done t) sign)
    (h : ((magnitude g t).andThen (numberEnd s)).error = none) :
    ∃ text, P text ∧ ReadsToken .number s
      ((magnitude g t).andThen (numberEnd s)) (sign ++ text) := by
  obtain ⟨ok, okEnd⟩ := error_andThen_eq_none.mp h
  obtain ⟨text, mag, taken⟩ := each t ok
  obtain ⟨rest, ahead, run⟩ : Takes s ((done t).andThen (magnitude g)) (sign ++ text) :=
    signed.andThen taken
  rw [done_andThen] at run
  refine ⟨text, mag, rest, ahead, ?_⟩
  rw [run] at okEnd
  have ends : Delimited (s.advance (sign ++ text).length).rest := delimited_of_numberEnd okEnd
  rw [run, done_andThen, numberEnd_eq ends]

/-- A number is what the dialect takes for one after its sign, with or without a sign. -/
theorem number_reads
    (each : ∀ t : Scanner, (magnitude g t).error = none →
      ∃ text, P text ∧ Takes t (magnitude g t) text)
    (h : (number g s).error = none) :
    ∃ text, (P text ∨ ∃ sign mag, isSign g sign ∧ P mag ∧ text = sign :: mag) ∧
      ReadsToken .number s (number g s) text := by
  unfold number at h ⊢
  by_cases signed : s.peek.any (isSign g)
  · obtain ⟨b, peek, sign⟩ : ∃ b, s.peek = some b ∧ isSign g b := by
      simpa [Option.any_eq_true] using signed
    rw [Scanner.bumpIf_of_peek peek sign] at h ⊢
    obtain ⟨mag, isMag, reads⟩ := number_of_takes each (takes_bump peek) h
    exact ⟨b :: mag, Or.inr ⟨b, mag, sign, isMag, rfl⟩, reads⟩
  · have none : s.bumpIf (isSign g) = s := by
      simp [Scanner.bumpIf, signed]
    rw [none] at h ⊢
    obtain ⟨mag, isMag, reads⟩ := number_of_takes each (takes_nil s) h
    exact ⟨mag, Or.inl isMag, reads⟩

/-- A number is read where the dialect takes its sign, if it has one, and then its magnitude. -/
theorem number_of_magnitude
    (sign : List UInt8)
    {mag : List UInt8}
    (h : s.rest = sign ++ mag ++ rest)
    (signed : s.bumpIf (isSign g) = s.advance sign.length)
    (taken : magnitude g (s.advance sign.length) =
      done ((s.advance sign.length).advance mag.length))
    (ends : Delimited rest) :
    number g s = token .number s (s.advance (sign ++ mag).length) := by
  have left : (s.advance (sign ++ mag).length).rest = rest := Scanner.rest_advance h
  rw [number, signed, taken, done_andThen, Scanner.advance_advance, ← List.length_append,
    numberEnd_eq (left ▸ ends)]

end Magnitude

/-! ## Strings -/

/-- What may follow in a string, up to its closing quote, after the reader has come to a state. -/
def Tail : StringState → List UInt8 → Prop
  | .plain, text => IsContent text
  | .escaped, text => IsContent (Byte.backslash :: text)
  | .hex more, text => ∃ digits rest, text = digits ++ rest ∧ digits.length = more + 1 ∧
      (∀ b ∈ digits, Byte.isHexDigit b) ∧ IsContent rest

/-- A step of the reader takes one byte off what may follow. -/
theorem tail_of_step
    {state next : StringState} {b : UInt8} {text : List UInt8}
    (h : state.step b = .ok (some next))
    (k : Tail next text) :
    Tail state (b :: text) := by
  cases state with
  | plain =>
      simp only [StringState.step] at h
      split at h
      · simp at h
      · rename_i notQuote
        split at h
        · rename_i backslash
          cases h
          cases backslash
          exact k
        · rename_i notBackslash
          split at h
          · simp at h
          · rename_i notControl
            cases h
            refine .plain ?_ notQuote notBackslash k
            simpa [Byte.isControl] using notControl
  | escaped =>
      simp only [StringState.step] at h
      split at h
      · rename_i isU
        cases h
        cases isU
        obtain ⟨digits, rest, rfl, length, hex, content⟩ := k
        match digits, length with
        | [a, b, c, d], _ =>
            exact .unicode (hex a (by simp)) (hex b (by simp)) (hex c (by simp))
              (hex d (by simp)) content
      · rename_i notU
        cases h
        exact .escape notU k
  | hex more =>
      simp only [StringState.step] at h
      split at h
      · rename_i digit
        cases more with
        | zero =>
            cases h
            refine ⟨[b], text, rfl, rfl, ?_, k⟩
            simpa using digit
        | succ more =>
            cases h
            obtain ⟨digits, rest, rfl, length, hex, content⟩ := k
            refine ⟨b :: digits, rest, rfl, by simp [length], ?_, content⟩
            intro c mem
            rcases List.mem_cons.mp mem with rfl | mem
            · exact digit
            · exact hex c mem
      · simp at h

/-- The state in which a quote closes a string is the plain one. -/
theorem eq_of_step_none
    {state : StringState} {b : UInt8}
    (h : state.step b = .ok none) :
    state = .plain ∧ b = Byte.quote := by
  cases state with
  | plain =>
      simp only [StringState.step] at h
      split at h
      · rename_i quote
        exact ⟨rfl, quote⟩
      · split at h
        · simp at h
        · split at h <;> simp at h
  | escaped =>
      simp only [StringState.step] at h
      split at h <;> simp at h
  | hex more =>
      simp only [StringState.step] at h
      split at h
      · cases more <;> simp at h
      · simp at h

theorem scan_sound :
    ∀ (bytes : List UInt8) (state : StringState) (count : Nat),
      state.scan bytes = (count, none) → ∃ text rest, Tail state text ∧
        bytes = text ++ Byte.quote :: rest ∧ count = text.length + 1
  | [], state, count, h => by
      simp [StringState.scan] at h
  | b :: bytes, state, count, h => by
      simp only [StringState.scan] at h
      split at h
      · simp at h
      · rename_i closed
        cases h
        obtain ⟨rfl, rfl⟩ := eq_of_step_none closed
        exact ⟨[], bytes, .nil, rfl, rfl⟩
      · rename_i next step
        simp only [Prod.mk.injEq] at h
        obtain ⟨text, rest, tail, rfl, count⟩ :=
          scan_sound bytes next (next.scan bytes).1 (by rw [← h.2])
        refine ⟨b :: text, rest, tail_of_step step tail, rfl, ?_⟩
        rw [← h.1, count, List.length_cons]

theorem scan_of_step
    {state next : StringState} {b : UInt8} {bytes : List UInt8} {count : Nat}
    (step : state.step b = .ok (some next))
    (h : next.scan bytes = (count, none)) :
    state.scan (b :: bytes) = (count + 1, none) := by
  simp [StringState.scan, step, h]

theorem step_hex
    {b : UInt8}
    (digit : Byte.isHexDigit b)
    (more : Nat) :
    (StringState.hex (more + 1)).step b = .ok (some (.hex more)) ∧
      (StringState.hex 0).step b = .ok (some .plain) := by
  simp [StringState.step, digit]

theorem scan_content
    (rest : List UInt8)
    (content : IsContent text) :
    StringState.plain.scan (text ++ Byte.quote :: rest) = (text.length + 1, none) := by
  have backslash : StringState.plain.step Byte.backslash = .ok (some .escaped) := rfl
  induction content with
  | nil =>
      rfl
  | @plain b more printable notQuote notBackslash _ ih =>
      have notControl : Byte.isControl b = false := by
        simpa [Byte.isControl] using printable
      exact scan_of_step (by simp [StringState.step, notQuote, notBackslash, notControl]) ih
  | @escape b more notU _ ih =>
      have escaped : StringState.escaped.step b = .ok (some .plain) := by
        simp [StringState.step, notU]
      exact scan_of_step backslash (scan_of_step escaped ih)
  | @unicode a b c d more ha hb hc hd _ ih =>
      have escaped : StringState.escaped.step Byte.lowerU = .ok (some (.hex 3)) := rfl
      refine scan_of_step backslash (scan_of_step escaped ?_)
      refine scan_of_step (step_hex ha 2).1 (scan_of_step (step_hex hb 1).1 ?_)
      exact scan_of_step (step_hex hc 0).1 (scan_of_step (step_hex hd 0).2 ih)

theorem string_sound
    (h : (string s).error = none) :
    ∃ content, IsContent content ∧ ReadsToken .string s (string s) (quoted content) := by
  obtain ⟨ok, _⟩ := error_andThen_eq_none.mp h
  obtain ⟨okQuote, okBody⟩ := error_andThen_eq_none.mp ok
  have peek := peek_of_expect okQuote
  rw [expect_of_peek peek] at okBody
  obtain ⟨more, ahead⟩ := Scanner.rest_of_peek peek
  cases scan : StringState.plain.scan s.bump.rest with
  | mk count outcome =>
      cases outcome with
      | some expected =>
          simp [stringBody, done, scan, missing, fail] at okBody
      | none =>
          obtain ⟨content, rest, tail, bytes, length⟩ := scan_sound _ _ _ scan
          rw [Scanner.rest_bump ahead] at bytes
          refine ⟨content, tail, rest, ?_, ?_⟩
          · simp [ahead, bytes, quoted]
          · rw [string, expect_of_peek peek, done_andThen, stringBody, scan, length]
            rw [done_andThen, Scanner.bump, Scanner.advance_advance]
            simp [quoted, Nat.add_comm]

theorem string_eq
    {content : List UInt8}
    (h : s.rest = quoted content ++ rest)
    (isContent : IsContent content) :
    string s = token .string s (s.advance (quoted content).length) := by
  have ahead : s.rest = Byte.quote :: (content ++ Byte.quote :: rest) := by
    simpa [quoted] using h
  have peek := Scanner.peek_of_rest ahead
  have scan := scan_content rest isContent
  rw [string, expect_of_peek peek, done_andThen, stringBody, Scanner.rest_bump ahead, scan]
  rw [done_andThen, Scanner.bump, Scanner.advance_advance]
  simp [quoted, Nat.add_comm]

end Syntax
end JsonDoc
