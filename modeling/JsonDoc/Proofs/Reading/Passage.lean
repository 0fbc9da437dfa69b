import JsonDoc.Grammar.Token

/-!
# Passages

A passage is the way from one place of an input to a later one. Every rule of the grammars moves
along such a way, so the offsets of its events and of its error can be told from the bytes that it
has passed.
-/

namespace JsonDoc
namespace Scanner

/-- The bytes `text` stand between the places `s` and `t` of one input. -/
structure Passes (s : Scanner) (text : List UInt8) (t : Scanner) : Prop where
  rest : s.rest = text ++ t.rest
  position : t.position = s.position + text.length
  maxDepth : t.maxDepth = s.maxDepth

namespace Passes

theorem refl
    (s : Scanner) :
    s.Passes [] s := ⟨by simp, by simp, rfl⟩

theorem trans
    {s t u : Scanner} {a b : List UInt8}
    (h : s.Passes a t)
    (k : t.Passes b u) :
    s.Passes (a ++ b) u where
  rest := by rw [h.rest, k.rest, List.append_assoc]
  position := by
    rw [k.position, h.position, List.length_append]
    omega
  maxDepth := k.maxDepth.trans h.maxDepth

theorem advance
    (s : Scanner)
    (count : Nat) :
    s.Passes (s.rest.take count) (s.advance count) where
  rest := by simp [Scanner.advance]
  position := rfl
  maxDepth := rfl

theorem deeper
    (s : Scanner) :
    s.Passes [] s.deeper := ⟨rfl, rfl, rfl⟩

theorem leave
    (s : Scanner) :
    s.Passes [] s.leave := ⟨rfl, rfl, rfl⟩

variable {s t : Scanner} {text : List UInt8} (h : s.Passes text t)
include h

theorem length_eq :
    t.length = s.length := by
  have := congrArg List.length h.rest
  have := h.position
  simp only [Scanner.length, List.length_append] at *
  omega

theorem position_le :
    s.position ≤ t.position := by
  rw [h.position]
  omega

theorem length_rest :
    s.rest.length = text.length + t.rest.length := by
  rw [h.rest, List.length_append]

theorem length_rest_le :
    t.rest.length ≤ s.rest.length := by
  rw [h.length_rest]
  omega

theorem length_rest_lt
    (moved : text ≠ []) :
    t.rest.length < s.rest.length := by
  have := List.length_pos_iff.mpr moved
  rw [h.length_rest]
  omega

theorem position_lt
    (moved : text ≠ []) :
    s.position < t.position := by
  have := List.length_pos_iff.mpr moved
  rw [h.position]
  omega

/-- The text of an event that covers a passage. -/
theorem textTo_eq :
    s.textTo t = text := by
  have : t.position - s.position = text.length := by
    rw [h.position]
    omega
  rw [textTo, this, h.rest, List.take_left]

end Passes

/-! ## The next byte -/

variable {s : Scanner} {b : UInt8}

theorem rest_of_peek
    (h : s.peek = some b) :
    ∃ rest, s.rest = b :: rest := by
  simpa [peek, List.head?_eq_some_iff] using h

theorem rest_ne_nil_of_peek
    (h : s.peek = some b) :
    s.rest ≠ [] := by
  obtain ⟨rest, h⟩ := rest_of_peek h
  simp [h]

theorem passes_bump
    (h : s.peek = some b) :
    s.Passes [b] s.bump := by
  obtain ⟨rest, h⟩ := rest_of_peek h
  have := Passes.advance s 1
  rwa [h] at this

theorem bump_eq
    (h : s.rest = b :: t) :
    s.bump = { s with rest := t, position := s.position + 1 } := by
  simp [bump, advance, h]

theorem position_eq_length
    (h : s.rest = []) :
    s.position = s.length := by
  simp [length, h]

/-! ## Going on -/

variable {text rest : List UInt8}

theorem rest_advance
    (h : s.rest = text ++ rest) :
    (s.advance text.length).rest = rest := by
  simp [advance, h]

theorem rest_bump
    {b : UInt8}
    (h : s.rest = b :: rest) :
    s.bump.rest = rest := by
  simp [bump, advance, h]

theorem advance_advance
    (s : Scanner)
    (m n : Nat) :
    (s.advance m).advance n = s.advance (m + n) := by
  have taken : (s.rest.take m).length + ((s.rest.drop m).take n).length =
      (s.rest.take (m + n)).length := by
    simp only [List.length_take, List.length_drop]
    omega
  simp only [advance, List.drop_drop, Nat.add_assoc, taken]

@[simp] theorem advance_zero
    (s : Scanner) :
    s.advance 0 = s := by
  simp [advance]

theorem peek_of_rest
    {b : UInt8}
    (h : s.rest = b :: rest) :
    s.peek = some b := by
  simp [peek, h]

/-! ## Runs of a class -/

variable {p : UInt8 → Bool}

theorem passes_skipWhile
    (s : Scanner)
    (p : UInt8 → Bool) :
    s.Passes (s.rest.takeWhile p) (s.skipWhile p) := by
  have h := Passes.advance s (s.rest.takeWhile p).length
  rwa [(List.prefix_iff_eq_take.mp (List.takeWhile_prefix p)).symm] at h

theorem takeWhile_ne_nil
    (h : s.peek.any p) :
    s.rest.takeWhile p ≠ [] := by
  cases hr : s.rest with
  | nil =>
      simp [peek, hr] at h
  | cons b rest =>
      have : p b := by simpa [peek, hr] using h
      simp [this]

theorem passes_bumpIf
    (s : Scanner)
    (p : UInt8 → Bool) :
    ∃ text, s.Passes text (s.bumpIf p) ∧ text.length ≤ 1 := by
  unfold bumpIf
  split
  · exact ⟨_, Passes.advance s 1, List.length_take_le 1 s.rest⟩
  · exact ⟨[], Passes.refl s, by simp⟩

end Scanner

namespace Grammar

theorem passes_skip
    (g : Grammar)
    (s : Scanner) :
    s.Passes (s.rest.take (g.triviaLength s.rest)) (g.skip s) :=
  Scanner.Passes.advance s _

end Grammar
end JsonDoc
