import JsonDoc.Text.Utf8

/-!
# Encoding and decoding

Decoding undoes encoding: `decode_encode`. So the bytes of a text stand for that text, and bytes
below 0x80 stand for one character each, `decode_ascii`.
-/

namespace JsonDoc
namespace Utf8

variable {n : Nat}

theorem toNat_ofNat_of_lt
    (h : n < 256) :
    (UInt8.ofNat n).toNat = n := by
  simp only [UInt8.toNat_ofNat']
  omega

/-! ## Single bytes -/

/-- The first byte of a character, by its number. -/
theorem lead_ofNat
    (h : n < 256) :
    lead (UInt8.ofNat n) =
      if n < 0x80 then ([Char.ofNat n], .between)
      else if n < 0xC2 then ([replacement], .between)
      else if n < 0xE0 then ([], .within (n - 0xC0) 0x80 0xBF 0)
      else if n = 0xE0 then ([], .within 0x0 0xA0 0xBF 1)
      else if n = 0xED then ([], .within 0xD 0x80 0x9F 1)
      else if n < 0xF0 then ([], .within (n - 0xE0) 0x80 0xBF 1)
      else if n = 0xF0 then ([], .within 0x0 0x90 0xBF 2)
      else if n < 0xF4 then ([], .within (n - 0xF0) 0x80 0xBF 2)
      else if n = 0xF4 then ([], .within 0x4 0x80 0x8F 2)
      else ([replacement], .between) := by
  have value := toNat_ofNat_of_lt h
  simp only [lead, UInt8.lt_iff_toNat_lt, ← UInt8.toNat_inj, value]
  rfl

/-- A byte that goes on with a character and does not end it. -/
theorem step_within
    (bits more : Nat)
    {low high : UInt8}
    (h : n < 256)
    (above : low.toNat ≤ n)
    (below : n ≤ high.toNat) :
    step (.within bits low high (more + 1)) (UInt8.ofNat n) =
      ([], .within (bits * 64 + n % 64) 0x80 0xBF more) := by
  have value := toNat_ofNat_of_lt h
  have inside : low ≤ UInt8.ofNat n ∧ UInt8.ofNat n ≤ high := by
    simpa only [UInt8.le_iff_toNat_le, value] using And.intro above below
  simp only [step, if_pos inside, value]

/-- A byte that ends a character. -/
theorem step_last
    (bits : Nat)
    {low high : UInt8}
    (h : n < 256)
    (above : low.toNat ≤ n)
    (below : n ≤ high.toNat) :
    step (.within bits low high 0) (UInt8.ofNat n) =
      ([Char.ofNat (bits * 64 + n % 64)], .between) := by
  have value := toNat_ofNat_of_lt h
  have inside : low ≤ UInt8.ofNat n ∧ UInt8.ofNat n ≤ high := by
    simpa only [UInt8.le_iff_toNat_le, value] using And.intro above below
  simp only [step, if_pos inside, value]

/-! ## Characters -/

/-- The state after the first byte of a character of three bytes. -/
theorem lead_three
    {v : Nat}
    (low : 0x800 ≤ v)
    (high : v ≤ 0xFFFF)
    (scalar : v < 0xD800 ∨ 0xDFFF < v) :
    ∃ first last : UInt8, lead (UInt8.ofNat (v / 4096 % 0x10 + 0xE0)) =
        ([], .within (v / 4096) first last 1) ∧
      first.toNat ≤ v / 64 % 0x40 + 0x80 ∧ v / 64 % 0x40 + 0x80 ≤ last.toNat := by
  have bits : v / 4096 % 0x10 = v / 4096 := by omega
  rw [lead_ofNat (by omega), bits]
  by_cases zero : v / 4096 = 0
  · refine ⟨0xA0, 0xBF, ?_, ?_, ?_⟩
    · simp [zero]
    · change 0xA0 ≤ _
      omega
    · change _ ≤ 0xBF
      omega
  · by_cases surrogates : v / 4096 = 0xD
    · refine ⟨0x80, 0x9F, ?_, ?_, ?_⟩
      · simp [surrogates]
      · change 0x80 ≤ _
        omega
      · change _ ≤ 0x9F
        omega
    · refine ⟨0x80, 0xBF, ?_, ?_, ?_⟩
      · rw [if_neg (by omega), if_neg (by omega), if_neg (by omega), if_neg (by omega),
          if_neg (by omega), if_pos (by omega), Nat.add_sub_cancel]
      · change 0x80 ≤ _
        omega
      · change _ ≤ 0xBF
        omega

/-- The state after the first byte of a character of four bytes. -/
theorem lead_four
    {v : Nat}
    (low : 0x10000 ≤ v)
    (high : v < 0x110000) :
    ∃ first last : UInt8, lead (UInt8.ofNat (v / 262144 % 0x08 + 0xF0)) =
        ([], .within (v / 262144) first last 2) ∧
      first.toNat ≤ v / 4096 % 0x40 + 0x80 ∧ v / 4096 % 0x40 + 0x80 ≤ last.toNat := by
  have bits : v / 262144 % 0x08 = v / 262144 := by omega
  rw [lead_ofNat (by omega), bits]
  by_cases zero : v / 262144 = 0
  · refine ⟨0x90, 0xBF, ?_, ?_, ?_⟩
    · simp [zero]
    · change 0x90 ≤ _
      omega
    · change _ ≤ 0xBF
      omega
  · by_cases top : v / 262144 = 4
    · refine ⟨0x80, 0x8F, ?_, ?_, ?_⟩
      · simp [top]
      · change 0x80 ≤ _
        omega
      · change _ ≤ 0x8F
        omega
    · refine ⟨0x80, 0xBF, ?_, ?_, ?_⟩
      · rw [if_neg (by omega), if_neg (by omega), if_neg (by omega), if_neg (by omega),
          if_neg (by omega), if_neg (by omega), if_neg (by omega), if_pos (by omega),
          Nat.add_sub_cancel]
      · change 0x80 ≤ _
        omega
      · change _ ≤ 0xBF
        omega

theorem decodeFrom_cons
    {state next : State} {b : UInt8} {chars : List Char}
    (h : step state b = (chars, next))
    (bytes : List UInt8) :
    decodeFrom state (b :: bytes) = chars ++ decodeFrom next bytes := by
  simp [decodeFrom, h]

/-- Six bits of a code make a byte that may stand inside a character. -/
theorem tail_bounds
    (v : Nat) :
    (0x80 : UInt8).toNat ≤ v % 0x40 + 0x80 ∧ v % 0x40 + 0x80 ≤ (0xBF : UInt8).toNat := by
  change 0x80 ≤ _ ∧ _ ≤ 0xBF
  omega

theorem tail_bits
    (v : Nat) :
    (v % 0x40 + 0x80) % 64 = v % 64 := by omega

/-- The last byte of a character of several bytes. -/
theorem step_tail
    (bits v : Nat) :
    step (.within bits 0x80 0xBF 0) (UInt8.ofNat (v % 0x40 + 0x80)) =
      ([Char.ofNat (bits * 64 + v % 64)], .between) := by
  obtain ⟨above, below⟩ := tail_bounds v
  rw [step_last bits (by omega) above below, tail_bits]

/-- A byte in the middle of a character of several bytes. -/
theorem step_middle
    (bits v more : Nat) :
    step (.within bits 0x80 0xBF (more + 1)) (UInt8.ofNat (v % 0x40 + 0x80)) =
      ([], .within (bits * 64 + v % 64) 0x80 0xBF more) := by
  obtain ⟨above, below⟩ := tail_bounds v
  rw [step_within bits more (by omega) above below, tail_bits]

theorem decodeFrom_encodeChar
    (c : Char)
    (rest : List UInt8) :
    decodeFrom .between (String.utf8EncodeChar c ++ rest) = c :: decodeFrom .between rest := by
  have code : Char.ofNat c.val.toNat = c := Char.ofNat_toNat c
  have scalar : c.val.toNat < 0xD800 ∨ 0xDFFF < c.val.toNat ∧ c.val.toNat < 0x110000 := c.valid
  unfold String.utf8EncodeChar
  generalize c.val.toNat = v at code scalar ⊢
  simp only
  split
  · have only : step .between (UInt8.ofNat v) = ([c], .between) := by
      rw [step, lead_ofNat (by omega), if_pos (by omega), code]
    rw [List.cons_append, decodeFrom_cons only]
    rfl
  · split
    · have bits : v / 64 % 0x20 = v / 64 := by omega
      have first : step .between (UInt8.ofNat (v / 64 % 0x20 + 0xC0)) =
          ([], .within (v / 64) 0x80 0xBF 0) := by
        rw [step, lead_ofNat (by omega), bits, if_neg (by omega), if_neg (by omega),
          if_pos (by omega), Nat.add_sub_cancel]
      have whole : v / 64 * 64 + v % 64 = v := by omega
      simp only [List.cons_append, decodeFrom_cons first, decodeFrom_cons (step_tail _ v),
        whole, code, List.nil_append]
    · split
      · rename_i three
        obtain ⟨low, high, first, above, below⟩ := lead_three (v := v) (by omega) three (by omega)
        have start : step .between _ = _ := first
        have second := step_within (v / 4096) 0 (by omega) above below
        have whole : (v / 4096 * 64 + v / 64 % 64) * 64 + v % 64 = v := by omega
        rw [tail_bits] at second
        simp only [List.cons_append, decodeFrom_cons start,
          decodeFrom_cons second, decodeFrom_cons (step_tail _ v), whole, code, List.nil_append]
      · obtain ⟨low, high, first, above, below⟩ := lead_four (v := v) (by omega) (by omega)
        have start : step .between _ = _ := first
        have second := step_within (v / 262144) 1 (by omega) above below
        have whole : ((v / 262144 * 64 + v / 4096 % 64) * 64 + v / 64 % 64) * 64 + v % 64 = v := by
          omega
        rw [tail_bits] at second
        simp only [List.cons_append, decodeFrom_cons start,
          decodeFrom_cons second, decodeFrom_cons (step_middle _ (v / 64) 0),
          decodeFrom_cons (step_tail _ v), whole, code, List.nil_append]

theorem decode_encode
    (chars : List Char) :
    decode (encode chars) = chars := by
  induction chars with
  | nil =>
      rfl
  | cons c chars ih =>
      rw [encode, List.flatMap_cons, decode, decodeFrom_encodeChar]
      exact congrArg (c :: ·) ih

theorem toText_ofText
    (text : String) :
    toText (ofText text) = text := by
  rw [toText, ofText, decode_encode, String.ofList_toList]

/-! ## Bytes below 0x80 -/

/-- The character of a byte below 0x80. -/
def asciiChar (b : UInt8) : Char := Char.ofNat b.toNat

theorem val_asciiChar
    {b : UInt8}
    (h : b.toNat < 0x80) :
    (asciiChar b).val.toNat = b.toNat := by
  rw [asciiChar, Char.ofNat, dif_pos (Or.inl (by omega))]
  rfl

theorem utf8EncodeChar_ascii
    {c : Char}
    (h : c.val.toNat < 0x80) :
    String.utf8EncodeChar c = [UInt8.ofNat c.val.toNat] := by
  rw [String.utf8EncodeChar]
  exact if_pos (Nat.le_of_lt_succ h)

theorem encode_cons
    (c : Char)
    (chars : List Char) :
    encode (c :: chars) = String.utf8EncodeChar c ++ encode chars := rfl

theorem encode_asciiChar
    {bytes : List UInt8}
    (h : ∀ b ∈ bytes, b.toNat < 0x80) :
    encode (bytes.map asciiChar) = bytes := by
  induction bytes with
  | nil =>
      rfl
  | cons b bytes ih =>
      have small := h b List.mem_cons_self
      have value := val_asciiChar small
      have rest := ih fun c mem => h c (List.mem_cons_of_mem b mem)
      rw [List.map_cons, encode_cons, utf8EncodeChar_ascii (by omega), value, rest]
      simp

/-- Bytes below 0x80 stand for one character each. -/
theorem decode_ascii
    {bytes : List UInt8}
    (h : ∀ b ∈ bytes, b.toNat < 0x80) :
    decode bytes = bytes.map asciiChar := by
  have := decode_encode (bytes.map asciiChar)
  rwa [encode_asciiChar h] at this

end Utf8
end JsonDoc
