import JsonDoc.Proofs.Text.Encoding

/-!
# Lossy decoding

Bytes that are decoded and encoded again need not be the same bytes: what was not valid has become
replacement characters. All that can differ are runs of bytes from 0x80 on, and none of them
vanishes or appears, `mended_toText`.
-/

namespace JsonDoc
namespace Utf8

/-- A run of bytes from 0x80 on. -/
def High (bytes : List UInt8) : Prop := bytes ≠ [] ∧ ∀ b ∈ bytes, 0x80 ≤ b.toNat

/-- The same bytes but for runs of bytes from 0x80 on, in place of which others stand. -/
inductive Mended : List UInt8 → List UInt8 → Prop
  | nil : Mended [] []
  | ascii {b : UInt8} {bytes mended : List UInt8} :
      b.toNat < 0x80 → Mended bytes mended → Mended (b :: bytes) (b :: mended)
  | high {run run' bytes mended : List UInt8} :
      High run → High run' → Mended bytes mended → Mended (run ++ bytes) (run' ++ mended)

/-! ## Open characters -/

/-- Whatever its remaining bytes are, the character with these bits is a scalar value from 0x80
on. -/
def Promises : Nat → Nat → Prop
  | 0, bits => 0x80 ≤ bits ∧ (bits < 0xD800 ∨ 0xDFFF < bits ∧ bits < 0x110000)
  | more + 1, bits => ∀ tail < 64, Promises more (bits * 64 + tail)

/-- The decoder stands inside a character that its next bytes can only complete well. -/
structure Opened (bits : Nat) (low high : UInt8) (more : Nat) : Prop where
  low_ge : 0x80 ≤ low.toNat
  promises : ∀ n, low.toNat ≤ n → n ≤ high.toNat → Promises more (bits * 64 + n % 64)

theorem Promises.opened
    {more bits : Nat}
    (h : Promises (more + 1) bits) :
    Opened bits 0x80 0xBF more :=
  ⟨Nat.le_refl _, fun _ _ _ => h _ (Nat.mod_lt _ (by decide))⟩

/-- A first byte from 0x80 on opens a character, or is not valid by itself. -/
theorem lead_high
    {n : Nat}
    (high : 0x80 ≤ n)
    (small : n < 256) :
    lead (UInt8.ofNat n) = ([replacement], .between) ∨
      ∃ bits first last more, lead (UInt8.ofNat n) = ([], .within bits first last more) ∧
        Opened bits first last more := by
  have opened {bits more : Nat} {first last : UInt8} (least most : Nat)
      (bounds : first.toNat = least ∧ last.toNat = most) (isTail : 0x80 ≤ least)
      (promises : ∀ n, least ≤ n → n ≤ most → Promises more (bits * 64 + n % 64)) :
      Opened bits first last more := by
    obtain ⟨rfl, rfl⟩ := bounds
    exact ⟨isTail, promises⟩
  rw [lead_ofNat small, if_neg (by omega)]
  by_cases tail : n < 0xC2
  · rw [if_pos tail]
    exact Or.inl rfl
  rw [if_neg tail]
  by_cases two : n < 0xE0
  · rw [if_pos two]
    refine Or.inr ⟨_, _, _, _, rfl, opened 0x80 0xBF ⟨rfl, rfl⟩ (by omega) ?_⟩
    intro m above below
    simp only [Promises]
    omega
  rw [if_neg two]
  by_cases e0 : n = 0xE0
  · rw [if_pos e0]
    refine Or.inr ⟨_, _, _, _, rfl, opened 0xA0 0xBF ⟨rfl, rfl⟩ (by omega) ?_⟩
    intro m above below
    simp only [Promises]
    omega
  rw [if_neg e0]
  by_cases ed : n = 0xED
  · rw [if_pos ed]
    refine Or.inr ⟨_, _, _, _, rfl, opened 0x80 0x9F ⟨rfl, rfl⟩ (by omega) ?_⟩
    intro m above below
    simp only [Promises]
    omega
  rw [if_neg ed]
  by_cases three : n < 0xF0
  · rw [if_pos three]
    refine Or.inr ⟨_, _, _, _, rfl, opened 0x80 0xBF ⟨rfl, rfl⟩ (by omega) ?_⟩
    intro m above below
    simp only [Promises]
    omega
  rw [if_neg three]
  by_cases f0 : n = 0xF0
  · rw [if_pos f0]
    refine Or.inr ⟨_, _, _, _, rfl, opened 0x90 0xBF ⟨rfl, rfl⟩ (by omega) ?_⟩
    intro m above below
    simp only [Promises]
    omega
  rw [if_neg f0]
  by_cases four : n < 0xF4
  · rw [if_pos four]
    refine Or.inr ⟨_, _, _, _, rfl, opened 0x80 0xBF ⟨rfl, rfl⟩ (by omega) ?_⟩
    intro m above below
    simp only [Promises]
    omega
  rw [if_neg four]
  by_cases f4 : n = 0xF4
  · rw [if_pos f4]
    refine Or.inr ⟨_, _, _, _, rfl, opened 0x80 0x8F ⟨rfl, rfl⟩ (by omega) ?_⟩
    intro m above below
    simp only [Promises]
    omega
  rw [if_neg f4]
  exact Or.inl rfl

/-! ## Characters -/

theorem high_utf8EncodeChar
    {c : Char}
    (h : 0x80 ≤ c.val.toNat) :
    High (String.utf8EncodeChar c) := by
  have size : c.val.toNat < 0x110000 := by
    rcases c.valid with small | ⟨_, small⟩
    · exact Nat.lt_trans small (by decide)
    · exact small
  have high (n k : Nat) (above : 0x80 ≤ k) (fits : n + k < 256) :
      0x80 ≤ (UInt8.ofNat (n + k)).toNat := by
    rw [toNat_ofNat_of_lt fits]
    omega
  unfold String.utf8EncodeChar
  generalize c.val.toNat = v at h size ⊢
  simp only
  split
  · omega
  · split
    · refine ⟨List.cons_ne_nil _ _, ?_⟩
      simp only [List.forall_mem_cons]
      exact ⟨high _ _ (by omega) (by omega), high _ _ (by omega) (by omega), by simp⟩
    · split
      · refine ⟨List.cons_ne_nil _ _, ?_⟩
        simp only [List.forall_mem_cons]
        exact ⟨high _ _ (by omega) (by omega), high _ _ (by omega) (by omega),
          high _ _ (by omega) (by omega), by simp⟩
      · refine ⟨List.cons_ne_nil _ _, ?_⟩
        simp only [List.forall_mem_cons]
        exact ⟨high _ _ (by omega) (by omega), high _ _ (by omega) (by omega),
          high _ _ (by omega) (by omega), high _ _ (by omega) (by omega), by simp⟩

theorem high_replacement :
    High (String.utf8EncodeChar replacement) :=
  high_utf8EncodeChar (by decide)

/-- A character that is complete as it was promised. -/
theorem high_of_promises
    {bits : Nat}
    (h : Promises 0 bits) :
    High (String.utf8EncodeChar (Char.ofNat bits)) := by
  obtain ⟨above, scalar⟩ := h
  have valid : bits.isValidChar := scalar
  refine high_utf8EncodeChar ?_
  rw [Char.ofNat, dif_pos valid]
  exact above

/-! ## Decoding and encoding again -/

/-- Bytes that are decoded and encoded again differ in runs from 0x80 on at most. Where a character
is open, it is completed or replaced, and the rest is as if the decoder had started there. -/
theorem mended_decodeFrom
    (bytes : List UInt8) :
    Mended bytes (encode (decodeFrom .between bytes)) ∧
      ∀ {bits : Nat} {low high : UInt8} {more : Nat}, Opened bits low high more →
        ∃ run rest run' mended, bytes = run ++ rest ∧ (∀ b ∈ run, 0x80 ≤ b.toNat) ∧
          encode (decodeFrom (.within bits low high more) bytes) = run' ++ mended ∧
          High run' ∧ Mended rest mended := by
  induction bytes with
  | nil =>
      refine ⟨.nil, ?_⟩
      intro bits low high more _
      exact ⟨[], [], _, [], rfl, by simp, by simp [decodeFrom, flush, encode], high_replacement,
        .nil⟩
  | cons b bytes ih =>
      obtain ⟨between, within⟩ := ih
      have start : Mended (b :: bytes) (encode (decodeFrom .between (b :: bytes))) := by
        by_cases ascii : b.toNat < 0x80
        · have lone : step .between b = ([asciiChar b], .between) := by
            have first : b < 0x80 := UInt8.lt_iff_toNat_lt.mpr ascii
            simp [step, lead, first, asciiChar]
          have value := val_asciiChar ascii
          rw [decodeFrom_cons lone, encode_append, encode_cons,
            utf8EncodeChar_ascii (by omega), value]
          simpa [encode] using Mended.ascii ascii between
        · have above : 0x80 ≤ b.toNat := Nat.not_lt.mp ascii
          have split := lead_high above b.toNat_lt
          rw [UInt8.ofNat_toNat] at split
          rcases split with invalid | ⟨bits, low, high, more, opens, opened⟩
          · rw [decodeFrom_cons (show step .between b = _ from invalid), encode_append]
            have lone : High [b] := ⟨List.cons_ne_nil _ _, by simpa using above⟩
            simpa [encode] using Mended.high lone high_replacement between
          · rw [decodeFrom_cons (show step .between b = _ from opens), List.nil_append]
            obtain ⟨run, rest, run', mended, rfl, isRun, eq, isRun', same⟩ := within opened
            rw [eq, ← List.cons_append]
            refine .high ⟨List.cons_ne_nil _ _, ?_⟩ isRun' same
            exact List.forall_mem_cons.mpr ⟨above, isRun⟩
      refine ⟨start, ?_⟩
      intro bits low high more opened
      by_cases inside : low ≤ b ∧ b ≤ high
      · have above : low.toNat ≤ b.toNat := UInt8.le_iff_toNat_le.mp inside.1
        have below : b.toNat ≤ high.toNat := UInt8.le_iff_toNat_le.mp inside.2
        have promises := opened.promises b.toNat above below
        have isTail : 0x80 ≤ b.toNat := Nat.le_trans opened.low_ge above
        cases more with
        | zero =>
            have last : step (.within bits low high 0) b =
                ([Char.ofNat (bits * 64 + b.toNat % 64)], .between) := by
              simp only [step, if_pos inside]
            refine ⟨[b], bytes, _, _, rfl, by simpa using isTail, ?_, high_of_promises promises,
              between⟩
            rw [decodeFrom_cons last, encode_append]
            simp [encode]
        | succ more =>
            have goesOn : step (.within bits low high (more + 1)) b =
                ([], .within (bits * 64 + b.toNat % 64) 0x80 0xBF more) := by
              simp only [step, if_pos inside]
            obtain ⟨run, rest, run', mended, rfl, isRun, eq, isRun', same⟩ :=
              within promises.opened
            refine ⟨b :: run, rest, run', mended, rfl, ?_, ?_, isRun', same⟩
            · exact List.forall_mem_cons.mpr ⟨isTail, isRun⟩
            · rw [decodeFrom_cons goesOn, List.nil_append, eq]
      · have afresh : decodeFrom (.within bits low high more) (b :: bytes) =
            replacement :: decodeFrom .between (b :: bytes) := by
          simp [decodeFrom, step, inside]
        refine ⟨[], b :: bytes, _, _, rfl, by simp, ?_, high_replacement, start⟩
        rw [afresh, encode_cons]

/-- Bytes that are read as text and written again. -/
theorem mended_toText
    (bytes : List UInt8) :
    Mended bytes (ofText (toText bytes)) := by
  rw [ofText, toList_toText]
  exact (mended_decodeFrom bytes).1

end Utf8
end JsonDoc
