import JsonDoc.Proofs.Building.Verbatim
import Mathlib.Data.Prod.Lex
import Mathlib.Order.Monotone.Basic

/-!
# Positions come in the order of offsets

Positions are ordered by their lines, and within a line by their columns. A greater offset never has
an earlier position, whatever the bytes are, `monotone_ofOffset`: where a source is cut inside a
character the cut shows as a replacement character, and what stands in its place in a longer piece
is at least one character as well. In a text, two offsets between characters have different
positions, `strictMonoOn_ofOffset`.
-/

namespace JsonDoc
namespace Position

open Utf8

/-- Lines count before columns. -/
instance : LinearOrder Position :=
  LinearOrder.lift' (fun p => toLex (p.line, p.column)) fun p q same => by
    obtain ⟨line, column⟩ := Prod.mk.inj (toLex.injective same)
    cases p
    cases q
    simp_all

theorem lt_iff
    {p q : Position} :
    p < q ↔ p.line < q.line ∨ p.line = q.line ∧ p.column < q.column := Prod.Lex.toLex_lt_toLex

/-! ## Characters -/

theorem lt_after
    (p : Position)
    (c : Char) :
    p < p.after c := by
  unfold after
  split
  · exact lt_iff.mpr (Or.inl (Nat.lt_succ_self _))
  · exact lt_iff.mpr (Or.inr ⟨rfl, Nat.lt_succ_self _⟩)

/-- No character leads less far than one that is not a line feed. -/
theorem after_le_after
    {c : Char}
    (p : Position)
    (h : c ≠ '\n')
    (d : Char) :
    p.after c ≤ p.after d := by
  unfold after
  rw [if_neg h]
  split
  · exact (lt_iff.mpr (Or.inl (Nat.lt_succ_self _))).le
  · exact le_rfl

theorem le_foldl_after
    (chars : List Char) :
    ∀ p : Position, p ≤ chars.foldl after p := by
  induction chars with
  | nil =>
      exact fun _ => le_rfl
  | cons c chars ih =>
      exact fun p => (lt_after p c).le.trans (ih (p.after c))

theorem afterText_append
    (first second : List Char) :
    afterText (first ++ second) = second.foldl after (afterText first) := List.foldl_append

theorem afterText_le_append
    (first second : List Char) :
    afterText first ≤ afterText (first ++ second) := by
  rw [afterText_append]
  exact le_foldl_after second _

theorem afterText_lt_append
    (first : List Char)
    {second : List Char}
    (some : second ≠ []) :
    afterText first < afterText (first ++ second) := by
  obtain ⟨c, more, rfl⟩ := List.exists_cons_of_ne_nil some
  rw [afterText_append, List.foldl_cons]
  exact (lt_after _ c).trans_le (le_foldl_after more _)

/-! ## Pieces of a source -/

/-- A character that has begun comes out as one character at least, whatever follows. -/
theorem decodeFrom_within_ne_nil
    (bytes : List UInt8) :
    ∀ bits low high more, decodeFrom (.within bits low high more) bytes ≠ [] := by
  induction bytes with
  | nil =>
      exact fun _ _ _ _ => List.cons_ne_nil _ _
  | cons b bytes ih =>
      intro bits low high more
      by_cases inside : low ≤ b ∧ b ≤ high
      · cases more with
        | zero =>
            simp [decodeFrom, step, inside]
        | succ more =>
            simpa [decodeFrom, step, inside] using ih _ _ _ _
      · simp [decodeFrom, step, inside]

/-- What a cut leaves of a character leads no further than the character itself. -/
theorem afterText_flush_le
    (chars : List Char)
    (state : State)
    (bytes : List UInt8) :
    afterText (chars ++ flush state) ≤ afterText (chars ++ decodeFrom state bytes) := by
  cases state with
  | between =>
      rw [flush, List.append_nil]
      exact afterText_le_append chars _
  | within bits low high more =>
      obtain ⟨c, rest, whole⟩ :=
        List.exists_cons_of_ne_nil (decodeFrom_within_ne_nil bytes bits low high more)
      rw [whole, flush, afterText_append, afterText_append, List.foldl_cons]
      exact (after_le_after _ (by decide) c).trans (le_foldl_after rest _)

/-- A longer piece of a source leads at least as far. -/
theorem afterText_decode_le
    (first second : List UInt8) :
    afterText (decode first) ≤ afterText (decode (first ++ second)) := by
  obtain ⟨chars, state, short, long⟩ := decodeFrom_append .between first second
  rw [decode, decode, short, long]
  exact afterText_flush_le chars state second

/-! ## Offsets -/

/-- Positions are in the order of offsets. -/
theorem monotone_ofOffset
    (source : List UInt8) :
    Monotone (ofOffset source) := by
  intro offset later le
  have isPrefix : source.take offset <+: source.take later := List.take_prefix_take_left le
  obtain ⟨more, longer⟩ := isPrefix
  rw [ofOffset, ofOffset, ← longer]
  exact afterText_decode_le _ more

theorem ofOffset_encode
    (before after : List Char) :
    ofOffset (encode (before ++ after)) (encode before).length = afterText before := by
  rw [ofOffset, encode_append, List.take_left, decode_encode]

/-- Between characters a later offset has a later position. -/
theorem strictMonoOn_ofOffset
    (chars : List Char) :
    StrictMonoOn (ofOffset (encode chars)) {offset | Boundary chars offset} := by
  rintro offset ⟨before, after, rfl, rfl⟩ later ⟨before', after', same, rfl⟩ lt
  rw [ofOffset_encode]
  rcases List.append_eq_append_iff.mp same with ⟨between, rfl, rfl⟩ | ⟨between, rfl, rfl⟩
  · rw [← List.append_assoc, ofOffset_encode]
    refine afterText_lt_append before ?_
    rintro rfl
    simp at lt
  · rw [encode_append, List.length_append] at lt
    omega

/-- A position never goes back when the offset goes on, for any bytes. In a text, offsets that stand
between characters go on in their positions as well. So two faults at different offsets of a text
are shown at different positions, whatever the grammars and the limits. -/
theorem ofOffset_ordered :
    (∀ source : List UInt8, Monotone (ofOffset source)) ∧
      (∀ chars : List Char,
        StrictMonoOn (ofOffset (encode chars)) {offset | Boundary chars offset}) ∧
      ∀ (chars : List Char) (g g' : Grammar) (options options' : ParserOptions)
        (fault fault' : Fault),
        Document.readTree g options (encode chars) = .error fault →
        Document.readTree g' options' (encode chars) = .error fault' →
        fault.offset? ≠ fault'.offset? →
        fault.position? (encode chars) ≠ fault'.position? (encode chars) := by
  refine ⟨monotone_ofOffset, strictMonoOn_ofOffset, ?_⟩
  intro chars g g' options options' fault fault' failed failed' apart same
  obtain ⟨offset, here, boundary⟩ := Document.boundary_fault failed
  obtain ⟨offset', here', boundary'⟩ := Document.boundary_fault failed'
  simp only [Fault.position?, here, here', Option.map_some, Option.some.injEq] at same
  refine apart ?_
  rw [here, here', (strictMonoOn_ofOffset chars).injOn boundary boundary' same]

/-- A cut inside a character is shown in the column of the character. The relaxed grammar goes one
byte further than the strict one here before it fails. -/
theorem ofOffset_ordered_cut :
    ofOffset [0xC3, 0xA9] 1 ≤ ofOffset [0xC3, 0xA9] 2 ∧
      ofOffset (encode ['\n', 'é']) 1 < ofOffset (encode ['\n', 'é']) 3 ∧
      Document.readTree .strict {} (encode ['[', '+', 'é']) =
        .error (.parse (.unexpected 1 .digit)) ∧
      Document.readTree .relaxed {} (encode ['[', '+', 'é']) =
        .error (.parse (.unexpected 2 .digit)) ∧
      Fault.position? (.parse (.unexpected 1 .digit)) (encode ['[', '+', 'é']) ≠
        Fault.position? (.parse (.unexpected 2 .digit)) (encode ['[', '+', 'é']) := by
  obtain ⟨ordered, strict, faults⟩ := ofOffset_ordered
  have here : Boundary ['\n', 'é'] 1 := ⟨['\n'], ['é'], rfl, rfl⟩
  have sooner : Document.readTree .strict {} (encode ['[', '+', 'é']) =
      .error (.parse (.unexpected 1 .digit)) := rfl
  have later : Document.readTree .relaxed {} (encode ['[', '+', 'é']) =
      .error (.parse (.unexpected 2 .digit)) := rfl
  exact ⟨ordered _ (by decide), strict _ here (boundary_end ['\n', 'é']) (by decide), sooner, later,
    faults _ _ _ _ _ _ _ sooner later (by decide)⟩

end Position
end JsonDoc
