import JsonDoc.Proofs.Binary64.Equality
import JsonDoc.Proofs.Text.Spelling
import JsonDoc.Proofs.Tree.Rekeying
import JsonDoc.Proofs.Writer.Number
import JsonDoc.Tree.Datum
import Mathlib.Data.List.Forall2

/-!
# Data that become trees and data again

A tree that was made from data gives the same data: every text, every key and every boolean is as it
was, and only numbers may be written in another way. They are equal as doubles then,
`toDatum_ofDatum`. What is lost is the precision of integers that are too large for a double.
-/

namespace JsonDoc

namespace Datum

/-- The double nearest to a number. -/
def toDouble? : Datum → Option Binary64
  | integer n => some (Binary64.ofInt n)
  | double x => some x
  | _ => none

/-- What other programs hold: integers have 64 bits, with a sign or without, other numbers are
finite, and the fields of a record are in the order of their keys, each key once. -/
inductive Proper : Datum → Prop
  | null : Proper .null
  | boolean (value : Bool) : Proper (.boolean value)
  | integer {n : Int} : -2 ^ 63 ≤ n → n < 2 ^ 64 → Proper (.integer n)
  | double {x : Binary64} : x.isFinite → Proper (.double x)
  | text (value : String) : Proper (.text value)
  | list {items : List Datum} : (∀ item ∈ items, Proper item) → Proper (.list items)
  | record {fields : Members Datum} :
      fields.Sorted → (∀ field ∈ fields, Proper field.2) → Proper (.record fields)

/-- The data are the same, with numbers that are equal as doubles. -/
inductive Same : Datum → Datum → Prop
  | null : Same .null .null
  | boolean (value : Bool) : Same (.boolean value) (.boolean value)
  | number {a b : Datum} {x y : Binary64} :
      a.toDouble? = some x → b.toDouble? = some y → x.numEq y → Same a b
  | text (value : String) : Same (.text value) (.text value)
  | list {items items' : List Datum} : List.Forall₂ Same items items' →
      Same (.list items) (.list items')
  | record {fields fields' : Members Datum} :
      fields.map Prod.fst = fields'.map Prod.fst →
      List.Forall₂ Same (fields.map Prod.snd) (fields'.map Prod.snd) →
      Same (.record fields) (.record fields')

end Datum

namespace Binary64

variable {x y : Binary64}

/-- Zeros are equal whatever their signs are. -/
theorem numEq_of_magnitude
    (finite : x.isFinite)
    (same : y.magnitude = x.magnitude)
    (sign : y.negative = x.negative ∨ x.magnitude = 0) :
    x.numEq y := by
  have notNaN := not_isNaN_of_isFinite finite
  have notNaN' : y.isNaN = false := by
    rw [isNaN, same]
    exact notNaN
  have rank : x.rank = y.rank := by
    rcases sign with sign | zero
    · rw [Binary64.rank, Binary64.rank, same, sign]
    · simp [Binary64.rank, same, zero]
  simp [numEq, notNaN, notNaN', rank]

/-- An integral number is the double of its integer part. -/
theorem numEq_ofInt_truncate
    (integral : x.isIntegral) :
    x.numEq (ofInt x.truncate) := by
  rw [ofInt_truncate integral]
  have finite : x.isFinite := by
    rw [isIntegral, Bool.and_eq_true] at integral
    exact integral.1
  refine numEq_of_magnitude finite rfl ?_
  cases zero : x.isZero with
  | false =>
      left
      exact signed_of_nonzero zero
  | true =>
      right
      rwa [isZero, beq_iff_eq] at zero

/-- Integers of 64 bits are far from overflowing. -/
theorem isFinite_ofInt
    {n : Int}
    (low : -2 ^ 63 ≤ n)
    (high : n < 2 ^ 64) :
    (ofInt n).isFinite := by
  have bits : n.natAbs < 2 * binade * 2 ^ 11 := by
    rw [binade_eq]
    omega
  have few : surplusBits (n.natAbs * unitsPerOne / 1) ≤ 1085 := by
    refine surplusBits_le ?_
    have shift (k l : Nat) (h : l = 11 + k) : n.natAbs <<< k < (2 * binade) <<< l := by
      rw [Nat.shiftLeft_eq, Nat.shiftLeft_eq, h, Nat.pow_add, ← Nat.mul_assoc]
      exact Nat.mul_lt_mul_of_pos_right bits (Nat.two_pow_pos k)
    rw [Nat.div_one, mul_unitsPerOne]
    exact shift 1074 1085 rfl
  exact isFinite_ofUnits _ (nearest_eq_binades (Nat.le_trans few (by decide))).2

end Binary64

namespace Tree

open Datum Escape

theorem numberDatum_equal
    {x : Binary64}
    (finite : x.isFinite) :
    ∃ y, (numberDatum x).toDouble? = some y ∧ x.numEq y := by
  unfold numberDatum
  split
  · rename_i integer
    simp only [Bool.and_eq_true] at integer
    exact ⟨_, rfl, Binary64.numEq_ofInt_truncate integer.1⟩
  · exact ⟨x, rfl, Binary64.numEq_of_magnitude finite rfl (.inl rfl)⟩

theorem ofDatumItems_eq
    (items : List Datum) :
    ofDatumItems items = items.map ofDatum := by
  induction items with
  | nil =>
      rfl
  | cons item items ih =>
      rw [ofDatumItems, ih, List.map_cons]

theorem ofDatumFields_eq
    (fields : List (String × Datum)) :
    ofDatumFields fields = fields.map fun field => (encodeText field.1, ofDatum field.2) := by
  induction fields with
  | nil =>
      rfl
  | cons field fields ih =>
      obtain ⟨key, value⟩ := field
      rw [ofDatumFields, ih, List.map_cons]

theorem toDatumItems_eq
    (items : List Tree) :
    toDatumItems items = items.map toDatum := by
  induction items with
  | nil =>
      rfl
  | cons item items ih =>
      rw [toDatumItems, ih, List.map_cons]

theorem toDatumFields_eq
    (members : List (String × Tree)) :
    toDatumFields members = members.map fun member => (decodeText member.1, toDatum member.2) := by
  induction members with
  | nil =>
      rfl
  | cons member members ih =>
      obtain ⟨key, value⟩ := member
      rw [toDatumFields, ih, List.map_cons]

theorem encodeText_injective :
    Function.Injective encodeText :=
  Function.LeftInverse.injective decodeText_encodeText

/-- The fields of a record stay under their keys and in their order. -/
theorem toDatum_ofDatum_record
    {fields : Members Datum}
    (sorted : fields.Sorted) :
    toDatum (ofDatum (.record fields)) =
      .record (fields.map fun field => (field.1, toDatum (ofDatum field.2))) := by
  have keys : (fields.map Prod.fst).Nodup := by
    refine List.pairwise_map.mpr (List.Pairwise.imp ?_ sorted)
    exact fun before same => String.lt_irrefl _ (same ▸ before)
  have encoded : ((fields.map fun field => (encodeText field.1, ofDatum field.2)).map
      Prod.fst).Nodup := by
    rw [List.map_map]
    have := keys.map encodeText_injective
    rwa [List.map_map] at this
  have decoded : (fields.map fun field => (encodeText field.1, ofDatum field.2)).map
      (fun member => (decodeText member.1, toDatum member.2)) =
        fields.map fun field => (field.1, toDatum (ofDatum field.2)) := by
    rw [List.map_map]
    refine List.map_congr_left fun field _ => ?_
    simp only [Function.comp_apply, decodeText_encodeText]
  have still : Members.Sorted (fields.map fun field => (field.1, toDatum (ofDatum field.2))) :=
    List.pairwise_map.mpr sorted
  have apart : ((fields.map fun field => (field.1, toDatum (ofDatum field.2))).map
      Prod.fst).Nodup := by
    rwa [List.map_map]
  rw [ofDatum, ofDatumFields_eq, ofMembers, toDatum, toDatumFields_eq,
    Members.ofList_map_ofList encoded (decoded.symm ▸ apart), decoded, Members.ofList_sorted still]

/-- Data that become a tree and data again are the same, up to the form of their numbers. -/
theorem toDatum_ofDatum
    {datum : Datum}
    (proper : datum.Proper) :
    datum.Same (toDatum (ofDatum datum)) := by
  induction proper with
  | null =>
      exact .null
  | boolean value =>
      exact .boolean value
  | integer low high =>
      obtain ⟨y, double, equal⟩ := numberDatum_equal (Binary64.isFinite_ofInt low high)
      exact .number rfl double equal
  | double finite =>
      obtain ⟨y, double, equal⟩ := numberDatum_equal finite
      exact .number rfl double equal
  | text value =>
      rw [ofDatum, ofText, toDatum, decodeText_encodeText]
      exact .text value
  | @list items _ ih =>
      rw [ofDatum, toDatum, ofDatumItems_eq, toDatumItems_eq, List.map_map]
      exact .list (List.forall₂_map_right_iff.mpr (List.forall₂_same.mpr ih))
  | @record fields sorted _ ih =>
      rw [toDatum_ofDatum_record sorted]
      refine .record ?_ ?_
      · rw [List.map_map]
        rfl
      · rw [List.map_map, List.forall₂_map_left_iff, List.forall₂_map_right_iff]
        exact List.forall₂_same.mpr ih

/-- A record whose keys are in another order when they are escaped. Of the numbers below the keys
one is too large to be exact, and one is a zero with a sign. -/
def escapedKeys : Datum :=
  .record [("\n", .list [.integer 9007199254740993, .double Binary64.zero.neg]), ("\"", .text "\\")]

theorem toDatum_ofDatum_escapedKeys :
    escapedKeys.Proper ∧ escapedKeys.Same (toDatum (ofDatum escapedKeys)) ∧
      encodeText "\"" < encodeText "\n" := by
  have numbers : (Datum.list [.integer 9007199254740993, .double Binary64.zero.neg]).Proper := by
    refine .list fun item mem => ?_
    simp only [List.mem_cons, List.not_mem_nil, or_false] at mem
    rcases mem with rfl | rfl
    · exact .integer (by decide) (by decide)
    · exact .double (by decide)
  have proper : escapedKeys.Proper := by
    refine .record (List.pairwise_pair.mpr (by decide)) fun field mem => ?_
    simp only [List.mem_cons, List.not_mem_nil, or_false] at mem
    rcases mem with rfl | rfl
    · exact numbers
    · exact .text _
  exact ⟨proper, toDatum_ofDatum proper, by decide⟩

end Tree
end JsonDoc
