import JsonDoc.Proofs.Text.Lossy

/-!
# Boundaries of characters

An offset into the bytes of a text is a boundary if it stands before a character or at the end.
Every class of bytes below 0x80 ends at a boundary, `boundary_takeWhile`, and what stands between
two boundaries is the encoding of a text, `Boundary.slice`.
-/

namespace JsonDoc
namespace Utf8

/-- The offset stands before a character of the text, or at its end. -/
def Boundary (chars : List Char) (offset : Nat) : Prop :=
  ∃ before after, chars = before ++ after ∧ offset = (encode before).length

variable {chars : List Char} {offset : Nat}

theorem boundary_start
    (chars : List Char) :
    Boundary chars 0 := ⟨[], chars, rfl, rfl⟩

theorem boundary_end
    (chars : List Char) :
    Boundary chars (encode chars).length :=
  ⟨chars, [], by simp, rfl⟩

theorem Boundary.cons
    (h : Boundary chars offset)
    (c : Char) :
    Boundary (c :: chars) ((String.utf8EncodeChar c).length + offset) := by
  obtain ⟨before, after, rfl, rfl⟩ := h
  exact ⟨c :: before, after, rfl, by rw [encode_cons, List.length_append]⟩

/-- A character is one byte below 0x80, or some bytes from 0x80 on. -/
theorem ascii_or_high
    (c : Char) :
    (∃ b : UInt8, b.toNat < 0x80 ∧ String.utf8EncodeChar c = [b]) ∨
      High (String.utf8EncodeChar c) := by
  by_cases low : c.val.toNat < 0x80
  · refine Or.inl ⟨UInt8.ofNat c.val.toNat, ?_, utf8EncodeChar_ascii low⟩
    rw [toNat_ofNat_of_lt (by omega)]
    exact low
  · exact Or.inr (high_utf8EncodeChar (by omega))

/-- Past a byte below 0x80 stands a boundary. -/
theorem boundary_one
    {b : UInt8} {bytes : List UInt8}
    (ahead : encode chars = b :: bytes)
    (ascii : b.toNat < 0x80) :
    Boundary chars 1 := by
  cases chars with
  | nil =>
      simp [encode] at ahead
  | cons c chars =>
      rw [encode_cons] at ahead
      rcases ascii_or_high c with ⟨first, _, only⟩ | ⟨some, high⟩
      · simpa [only] using (boundary_start chars).cons c
      · obtain ⟨first, run, split⟩ := List.exists_cons_of_ne_nil some
        rw [split, List.cons_append] at ahead
        cases ahead
        have := high b (by simp [split])
        omega

/-- Before a byte below 0x80 stands a boundary. -/
theorem boundary_before
    {b : UInt8} {back : List UInt8}
    (ascii : b.toNat < 0x80) :
    ∀ {chars : List Char} {front : List UInt8}, encode chars = front ++ b :: back →
      Boundary chars front.length := by
  intro chars
  induction chars with
  | nil =>
      intro front split
      simp [encode] at split
  | cons c chars ih =>
      intro front split
      rw [encode_cons] at split
      rcases List.append_eq_append_iff.mp split with ⟨more, rfl, later⟩ | ⟨inside, here, later⟩
      · simpa using (ih later).cons c
      · -- the byte stands in the character, which is then nothing else
        cases inside with
        | nil =>
            have split : encode chars = [] ++ b :: back := later.symm
            simpa [here] using (ih split).cons c
        | cons first inside =>
            rw [List.cons_append, List.cons.injEq] at later
            rcases ascii_or_high c with ⟨only, _, single⟩ | ⟨_, high⟩
            · rw [single] at here
              have none : front = [] := by
                cases front with
                | nil =>
                    rfl
                | cons x front =>
                    simp at here
              rw [none]
              exact boundary_start _
            · have := high first (by simp [here])
              rw [later.1] at ascii
              omega

/-- A class of bytes below 0x80 ends at a boundary. -/
theorem boundary_takeWhile
    {p : UInt8 → Bool}
    (ascii : ∀ b, p b → b.toNat < 0x80)
    (chars : List Char) :
    Boundary chars ((encode chars).takeWhile p).length := by
  induction chars with
  | nil =>
      exact boundary_start []
  | cons c chars ih =>
      rw [encode_cons]
      rcases ascii_or_high c with ⟨b, _, only⟩ | ⟨some, high⟩
      · rw [only, List.singleton_append]
        cases isIn : p b with
        | false =>
            rw [List.takeWhile_cons_of_neg (by simp [isIn])]
            exact boundary_start _
        | true =>
            rw [List.takeWhile_cons_of_pos isIn, List.length_cons, Nat.add_comm]
            simpa [only] using ih.cons c
      · obtain ⟨b, run, split⟩ := List.exists_cons_of_ne_nil some
        have notIn : ¬ p b := by
          intro isIn
          have := ascii b isIn
          have := high b (by simp [split])
          omega
        rw [split, List.cons_append, List.takeWhile_cons_of_neg notIn]
        exact boundary_start _

/-- A text of bytes below 0x80 ends at a boundary. -/
theorem boundary_of_ascii
    {text : List UInt8}
    (ascii : ∀ b ∈ text, b.toNat < 0x80) :
    ∀ {chars : List Char} {rest : List UInt8}, encode chars = text ++ rest →
      Boundary chars text.length := by
  induction text with
  | nil =>
      exact fun {chars} _ _ => boundary_start chars
  | cons b text ih =>
      intro chars rest ahead
      obtain ⟨low, others⟩ := List.forall_mem_cons.mp ascii
      obtain ⟨before, after, rfl, one⟩ := boundary_one ahead low
      have split : encode before ++ encode after = [b] ++ (text ++ rest) := by
        rw [← encode_append, ahead, List.cons_append, List.singleton_append]
      obtain ⟨first, bytes⟩ := List.append_inj split (by simp [← one])
      obtain ⟨before', after', rfl, length⟩ := ih others bytes
      refine ⟨before ++ before', after', by simp, ?_⟩
      rw [encode_append, first, List.length_append, ← length]
      simp [Nat.add_comm]

/-- What stands between two boundaries is a text. -/
theorem Boundary.slice
    {start stop : Nat}
    (first : Boundary chars start)
    (last : Boundary chars stop)
    (le : start ≤ stop) :
    ∃ text, ((encode chars).drop start).take (stop - start) = encode text := by
  obtain ⟨before, after, rfl, rfl⟩ := first
  obtain ⟨before', after', same, rfl⟩ := last
  -- of two beginnings of a text the longer one begins with the shorter one
  rcases List.append_eq_append_iff.mp same with ⟨text, rfl, _⟩ | ⟨text, rfl, _⟩
  · refine ⟨text, ?_⟩
    rw [same]
    simp
  · refine ⟨[], ?_⟩
    simp [encode]

end Utf8
end JsonDoc
