import JsonDoc.Proofs.Syntax.Relaxed
import JsonDoc.Proofs.Text.Lossy
import JsonDoc.Proofs.Tree.Leaves

/-!
# Trees that are derived

What a derivation stands for is a tree as the writer needs it: its objects are in order, and its
contents can stand in a string again, also those that were not valid UTF-8.
-/

namespace JsonDoc
namespace Syntax

open Utf8

variable {state next : StringState} {b : UInt8} {text run rest : List UInt8}

/-! ## Contents -/

/-- What may follow in a string begins with a byte that the reader goes on from. -/
theorem step_of_tail
    (h : Tail state (b :: text)) :
    ∃ next, state.step b = .ok (some next) ∧ Tail next text := by
  cases state with
  | plain =>
      cases h with
      | plain printable notQuote notBackslash content =>
          have notControl : Byte.isControl b = false := by
            simpa [Byte.isControl] using printable
          exact ⟨.plain, by simp [StringState.step, notQuote, notBackslash, notControl], content⟩
      | escape notU content =>
          exact ⟨.escaped, rfl, .escape notU content⟩
      | unicode ha hb hc hd content =>
          exact ⟨.escaped, rfl, .unicode ha hb hc hd content⟩
  | escaped =>
      cases h with
      | plain _ _ notBackslash _ =>
          exact absurd rfl notBackslash
      | escape notU content =>
          exact ⟨.plain, by simp [StringState.step, notU], content⟩
      | @unicode a b c d more ha hb hc hd content =>
          refine ⟨.hex 3, rfl, [a, b, c, d], more, rfl, rfl, ?_, content⟩
          simp [ha, hb, hc, hd]
  | hex more =>
      obtain ⟨digits, rest, split, length, all, content⟩ := h
      cases digits with
      | nil =>
          simp at length
      | cons digit digits =>
          obtain ⟨rfl, rfl⟩ := List.cons.inj split
          have digit := all b List.mem_cons_self
          cases more with
          | zero =>
              have none : digits = [] := by
                rw [List.length_cons] at length
                exact List.eq_nil_of_length_eq_zero (by omega)
              subst none
              exact ⟨.plain, (step_hex digit 0).2, content⟩
          | succ more =>
              refine ⟨.hex more, (step_hex digit more).1, digits, rest, rfl, ?_, ?_, content⟩
              · simpa using length
              · exact fun c mem => all c (List.mem_cons_of_mem _ mem)

/-- A byte from 0x80 on stands for itself, after a backslash too. -/
theorem step_of_high
    (high : 0x80 ≤ b.toNat)
    (h : state.step b = .ok (some next)) :
    next = .plain ∧ (state = .plain ∨ state = .escaped) := by
  have other {c : UInt8} (small : c.toNat < 0x80) : b ≠ c := by
    rintro rfl
    omega
  cases state with
  | plain =>
      have notBackslash : b ≠ Byte.backslash := other (by decide)
      simp only [StringState.step, notBackslash, if_false] at h
      split at h
      · simp at h
      · split at h
        · simp at h
        · cases h
          exact ⟨rfl, Or.inl rfl⟩
  | escaped =>
      have notU : b ≠ Byte.lowerU := other (by decide)
      simp only [StringState.step, notU, if_false] at h
      cases h
      exact ⟨rfl, Or.inr rfl⟩
  | hex more =>
      have notHex : Byte.isHexDigit b = false := by
        cases digit : Byte.isHexDigit b with
        | false =>
            rfl
        | true =>
            have small := (isDigitOf_hexadecimal digit).1
            omega
      simp [StringState.step, notHex] at h

theorem step_high
    (high : 0x80 ≤ b.toNat)
    (h : state = .plain ∨ state = .escaped) :
    state.step b = .ok (some .plain) := by
  have other {c : UInt8} (small : c.toNat < 0x80) : b ≠ c := by
    rintro rfl
    omega
  rcases h with rfl | rfl
  · have notQuote : b ≠ Byte.quote := other (by decide)
    have notBackslash : b ≠ Byte.backslash := other (by decide)
    have notControl : Byte.isControl b = false := by
      simp only [Byte.isControl, decide_eq_false_iff_not, UInt8.lt_iff_toNat_lt]
      change ¬ b.toNat < 0x20
      omega
    simp [StringState.step, notQuote, notBackslash, notControl]
  · have notU : b ≠ Byte.lowerU := other (by decide)
    simp [StringState.step, notU]

/-- A run of bytes from 0x80 on says nothing of what follows. -/
theorem tail_high
    (high : High run) :
    Tail state (run ++ rest) ↔ (state = .plain ∨ state = .escaped) ∧ IsContent rest := by
  obtain ⟨some, all⟩ := high
  induction run generalizing state with
  | nil =>
      exact absurd rfl some
  | cons b run ih =>
      obtain ⟨first, others⟩ := List.forall_mem_cons.mp all
      have inner : Tail .plain (run ++ rest) ↔ IsContent rest := by
        cases run with
        | nil =>
            exact Iff.rfl
        | cons c run =>
            simpa using @ih .plain (List.cons_ne_nil _ _) others
      constructor
      · intro tail
        obtain ⟨next, step, tail⟩ := step_of_tail tail
        obtain ⟨rfl, before⟩ := step_of_high first step
        exact ⟨before, inner.mp tail⟩
      · rintro ⟨before, content⟩
        exact tail_of_step (step_high first before) (inner.mpr content)

theorem tail_of_mended
    {mended : List UInt8}
    (h : Mended text mended) :
    ∀ state : StringState, Tail state text → Tail state mended := by
  induction h with
  | nil =>
      exact fun _ tail => tail
  | ascii _ _ ih =>
      intro state tail
      obtain ⟨next, step, tail⟩ := step_of_tail tail
      exact tail_of_step step (ih next tail)
  | high isRun isRun' _ ih =>
      intro state tail
      obtain ⟨before, content⟩ := (tail_high isRun).mp tail
      exact (tail_high isRun').mpr ⟨before, ih .plain content⟩

/-- Content can be written where it was read, also if it was not valid text. -/
theorem isContent_toText
    (h : IsContent text) :
    IsContent (ofText (toText text)) :=
  tail_of_mended (mended_toText text) .plain h

/-- A word can stand between quotes. -/
theorem isContent_of_isWord
    (h : IsWord text) :
    IsContent text := by
  have plain {b : UInt8} {more : List UInt8} (part : Byte.isWordPart b) (content : IsContent more) :
      IsContent (b :: more) := by
    have printable : 0x20 ≤ b := by
      simp only [Byte.isWordPart, Byte.isLetter, Byte.isDigit, Bool.or_eq_true, Bool.and_eq_true,
        decide_eq_true_eq, beq_iff_eq, UInt8.le_iff_toNat_le] at part
      rw [UInt8.le_iff_toNat_le]
      change 0x20 ≤ b.toNat
      rcases part with ((⟨low, _⟩ | ⟨low, _⟩) | ⟨low, _⟩) | rfl
      · exact Nat.le_trans (by decide) low
      · exact Nat.le_trans (by decide) low
      · exact Nat.le_trans (by decide) low
      · decide
    refine .plain printable ?_ ?_ content
    · rintro rfl
      exact absurd part (by decide)
    · rintro rfl
      exact absurd part (by decide)
  cases h with
  | @mk first more start parts =>
      refine plain (Grammar.isWordPart_of_isWordStart start) ?_
      induction more with
      | nil =>
          exact .nil
      | cons b more ih =>
          obtain ⟨part, parts⟩ := List.forall_mem_cons.mp parts
          exact plain part (ih parts)

/-! ## Trees -/

section Trees

variable {lex : Lexicon} {tree : Tree} {P : String → Prop}

/-- Objects are built in order. -/
theorem ordered_of_value
    (scalars : ∀ text tree, lex.scalar text tree → tree.Ordered)
    (h : lex.Value text tree) :
    tree.Ordered := by
  induction h with
  | scalar scalar =>
      exact scalars _ _ scalar
  | emptyArray _ =>
      exact .array (by simp)
  | array elements _ _ _ ih =>
      refine .array ?_
      intro item mem
      obtain ⟨e, here, rfl⟩ := List.mem_map.mp mem
      exact ih e here
  | emptyObject _ =>
      exact .object .nil (by simp)
  | object members _ _ _ ih =>
      refine .object (Members.sorted_ofList _) ?_
      intro member mem
      obtain ⟨m, here, rfl⟩ := List.mem_map.mp (Members.mem_ofList mem)
      exact ih m here

/-- What holds of the contents of all leaves and keys holds of the whole tree. -/
theorem allContent_of_value
    (keys : ∀ text content, lex.key text content → P content)
    (scalars : ∀ text tree, lex.scalar text tree → tree.AllContent P)
    (h : lex.Value text tree) :
    tree.AllContent P := by
  induction h with
  | scalar scalar =>
      exact scalars _ _ scalar
  | emptyArray _ =>
      exact .array (by simp)
  | array elements _ _ _ ih =>
      refine .array ?_
      intro item mem
      obtain ⟨e, here, rfl⟩ := List.mem_map.mp mem
      exact ih e here
  | emptyObject _ =>
      exact .object (by simp) (by simp)
  | object members _ around _ ih =>
      refine .object ?_ ?_
      · intro member mem
        obtain ⟨m, here, rfl⟩ := List.mem_map.mp (Members.mem_ofList mem)
        exact keys _ _ (around m here).2.key
      · intro member mem
        obtain ⟨m, here, rfl⟩ := List.mem_map.mp (Members.mem_ofList mem)
        exact ih m here

end Trees

end Syntax
end JsonDoc
