import JsonDoc.Proofs.Text.Encoding
import Mathlib.Tactic.Positivity
import Mathlib.Tactic.SplitIfs

/-!
# The order of texts

Texts are in the order of the bytes that encode them, `ofText_lt`. The first byte of a character
tells how many bytes follow, so of two characters the lesser one has the lesser first byte, or the
same one and lesser bits in the bytes after it.
-/

namespace JsonDoc
namespace Utf8

/-! ## Forms of characters -/

theorem val_lt
    (c : Char) :
    c.val.toNat < 0x110000 := by
  rcases c.valid with low | high
  · exact Nat.lt_trans low (by decide)
  · exact high.2

/-- How many bytes follow the first one of a character. -/
def trailing (v : Nat) : Nat :=
  if v ≤ 0x7F then 0 else if v ≤ 0x7FF then 1 else if v ≤ 0xFFFF then 2 else 3

/-- What marks a first byte that some bytes follow. -/
def mark : Nat → Nat
  | 0 => 0
  | 1 => 0xC0
  | 2 => 0xE0
  | _ => 0xF0

/-- The first byte of a character. -/
def first (v : Nat) : Nat := v / 64 ^ trailing v + mark (trailing v)

/-- The last bytes of a character, six bits in each of them. -/
def tail (v : Nat) : Nat → List UInt8
  | 0 => []
  | k + 1 => UInt8.ofNat (v / 64 ^ k % 64 + 0x80) :: tail v k

theorem utf8EncodeChar_eq
    (c : Char) :
    String.utf8EncodeChar c =
      UInt8.ofNat (first c.val.toNat) :: tail c.val.toNat (trailing c.val.toNat) := by
  have bound : c.val.toNat < 0x110000 := val_lt c
  unfold String.utf8EncodeChar first
  generalize c.val.toNat = v at bound ⊢
  simp only [trailing]
  split_ifs with one two three
  · simp [mark, tail]
  · have bits : v / 64 % 0x20 = v / 64 := by omega
    simp [mark, tail, bits]
  · have bits : v / 4096 % 0x10 = v / 4096 := by omega
    simp [mark, tail, bits]
  · have bits : v / 262144 % 0x08 = v / 262144 := by omega
    simp [mark, tail, bits]

theorem first_lt
    {v : Nat}
    (bound : v < 0x110000) :
    first v < 256 := by
  unfold first trailing
  split_ifs <;> simp only [mark, Nat.reducePow] <;> omega

/-- Of two characters with the same first byte the same number of bytes follows. -/
theorem first_cases
    {v w : Nat}
    (less : v < w)
    (bound : w < 0x110000) :
    first v < first w ∨ (first v = first w ∧ trailing v = trailing w ∧
      v % 64 ^ trailing w < w % 64 ^ trailing w) := by
  unfold first trailing
  split_ifs <;> simp only [mark, Nat.reducePow, true_and] <;> omega

/-! ## Comparing bytes -/

theorem cons_ofNat_lt
    {m n : Nat}
    (hm : m < 256)
    (hn : n < 256)
    {s t : List UInt8} :
    UInt8.ofNat m :: s < UInt8.ofNat n :: t ↔ m < n ∨ m = n ∧ s < t := by
  rw [List.cons_lt_cons_iff, UInt8.lt_iff_toNat_lt, ← UInt8.toNat_inj, toNat_ofNat_of_lt hm,
    toNat_ofNat_of_lt hn]

/-- The bytes after the first one are in the order of the bits in them. -/
theorem tail_append_lt
    {v w : Nat}
    (s t : List UInt8)
    (k : Nat)
    (less : v % 64 ^ k < w % 64 ^ k) :
    tail v k ++ s < tail w k ++ t := by
  induction k with
  | zero =>
      simp [Nat.mod_one] at less
  | succ k ih =>
      rw [tail, tail, List.cons_append, List.cons_append, cons_ofNat_lt (by omega) (by omega)]
      rw [Nat.mod_pow_succ, Nat.mod_pow_succ] at less
      rcases Nat.lt_trichotomy (v / 64 ^ k % 64) (w / 64 ^ k % 64) with before | same | after
      · exact .inl (by omega)
      · rw [same] at less
        exact .inr ⟨by omega, ih (by omega)⟩
      · -- more in the higher bits outweighs whatever the lower ones hold
        have low := Nat.mod_lt w (show 0 < 64 ^ k by positivity)
        have high := Nat.mul_le_mul_left (64 ^ k) after
        rw [Nat.mul_succ] at high
        omega

/-- The lesser character has the lesser bytes, whatever follows. -/
theorem utf8EncodeChar_append_lt
    {c d : Char}
    (less : c < d)
    (s t : List UInt8) :
    String.utf8EncodeChar c ++ s < String.utf8EncodeChar d ++ t := by
  have below : c.val.toNat < d.val.toNat := UInt32.lt_iff_toNat_lt.mp (Char.lt_def.mp less)
  have bound : d.val.toNat < 0x110000 := val_lt d
  rw [utf8EncodeChar_eq, utf8EncodeChar_eq, List.cons_append, List.cons_append,
    cons_ofNat_lt (first_lt (Nat.lt_trans below bound)) (first_lt bound)]
  rcases first_cases below bound with before | ⟨same, length, bits⟩
  · exact .inl before
  · rw [length]
    exact .inr ⟨same, tail_append_lt s t _ bits⟩

theorem append_lt_append
    (bytes : List UInt8)
    {s t : List UInt8}
    (less : s < t) :
    bytes ++ s < bytes ++ t := by
  induction bytes with
  | nil =>
      exact less
  | cons b bytes ih =>
      exact List.cons_lt_cons_iff.mpr (.inr ⟨rfl, ih⟩)

theorem encode_lt
    {s t : List Char}
    (less : s < t) :
    encode s < encode t := by
  induction less with
  | @nil c t =>
      rw [encode_cons, utf8EncodeChar_eq]
      exact .nil
  | @rel c s d t less =>
      exact utf8EncodeChar_append_lt less _ _
  | @cons c s t _ ih =>
      exact append_lt_append _ ih

/-- Texts are in the order of their bytes. -/
theorem ofText_lt
    {s t : String}
    (less : s < t) :
    ofText s < ofText t :=
  encode_lt (String.lt_iff.mp less)

end Utf8
end JsonDoc
