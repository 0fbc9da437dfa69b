import JsonDoc.Proofs.Text.Spelling
import JsonDoc.Proofs.Tree.Datum
import JsonDoc.Proofs.Tree.Rekeying
import JsonDoc.Proofs.Writer.NumberToken
import JsonDoc.Tree.Datum
import Mathlib.Data.List.Forall2

/-!
# What a tree tells to a format

A format is told the data of a tree by `Tree.serialize`. If they are kept as data, `Datum.collect`,
they are those of `Tree.toDatum`.

A tree spells data, `Datum.Spelled`, if it has their numbers, and if every string and every key is
one of the spellings of the text. There are many such trees, and all of them mean the same as the
tree that told the data, as long as its keys stay apart: `decoded_of_spelled`.
-/

namespace JsonDoc

namespace Datum

/-! ## Data as they are kept -/

mutual

/-- What is kept of data that are told: numbers that are not finite are null, and the fields of a
record are in the order of their keys, of equal keys the last one. -/
def collect : Datum → Datum
  | double x => if x.isFinite then double x else null
  | list items => list (collectItems items)
  | record fields => record (Members.ofList (collectFields fields))
  | null => null
  | boolean value => boolean value
  | integer n => integer n
  | text value => text value

def collectItems : List Datum → List Datum
  | [] => []
  | item :: items => collect item :: collectItems items

def collectFields : List (String × Datum) → List (String × Datum)
  | [] => []
  | (key, value) :: fields => (key, collect value) :: collectFields fields

end

/-! ## Data that can be written -/

/-- What a format of text can be told: integers of 64 bits, and other numbers that are finite. -/
inductive Writable : Datum → Prop
  | null : Writable .null
  | boolean (value : Bool) : Writable (.boolean value)
  | integer {n : Int} : -2 ^ 63 ≤ n → n < 2 ^ 63 → Writable (.integer n)
  | double {x : Binary64} : x.isFinite → Writable (.double x)
  | text (value : String) : Writable (.text value)
  | list {items : List Datum} : (∀ item ∈ items, Writable item) → Writable (.list items)
  | record {fields : List (String × Datum)} :
      (∀ field ∈ fields, Writable field.2) → Writable (.record fields)

/-- The trees that spell data: numbers have the same value, and texts and keys are spelled in any
way. Of equal keys the last one counts. -/
inductive Spelled : Datum → Tree → Prop
  | null : Spelled .null .null
  | boolean (value : Bool) : Spelled (.boolean value) (.boolean value)
  | integer (n : Int) : Spelled (.integer n) (.number (Binary64.ofInt n))
  | double (x : Binary64) : Spelled (.double x) (.number x)
  | text {value content : String} :
      Escape.Spells value.toList content.toList → Spelled (.text value) (.string content)
  | list {items : List Datum} {trees : List Tree} :
      List.Forall₂ Spelled items trees → Spelled (.list items) (.array trees)
  | record {fields : List (String × Datum)} {pairs : List (String × Tree)} :
      List.Forall₂ (fun field pair => Escape.Spells field.1.toList pair.1.toList) fields pairs →
      List.Forall₂ Spelled (fields.map Prod.snd) (pairs.map Prod.snd) →
      Spelled (.record fields) (.object (Members.ofList pairs))

end Datum

namespace Tree

open Escape

theorem serializeItems_eq
    (items : List Tree) :
    serializeItems items = items.map serialize := by
  induction items with
  | nil =>
      rfl
  | cons item items ih =>
      rw [serializeItems, ih, List.map_cons]

theorem serializeMembers_eq
    (members : List (String × Tree)) :
    serializeMembers members =
      members.map fun member => (decodeText member.1, serialize member.2) := by
  induction members with
  | nil =>
      rfl
  | cons member members ih =>
      obtain ⟨key, value⟩ := member
      rw [serializeMembers, ih, List.map_cons]

/-! ## Data as they are kept -/

theorem collect_serializeNumber
    (n : Binary64) :
    (serializeNumber n).collect = numberDatum n := by
  unfold serializeNumber numberDatum
  split
  · rw [Datum.collect]
  · rw [Datum.collect]

mutual

/-- The data of a tree are what is kept of what it tells. -/
theorem collect_serialize :
    ∀ tree : Tree, tree.serialize.collect = tree.toDatum
  | null => by
      rw [serialize, toDatum, Datum.collect]
  | boolean _ => by
      rw [serialize, toDatum, Datum.collect]
  | number n =>
      collect_serializeNumber n
  | string _ => by
      rw [serialize, toDatum, Datum.collect]
  | array items => by
      rw [serialize, toDatum, Datum.collect, collectItems_serialize items]
  | object members => by
      rw [serialize, toDatum, Datum.collect, collectFields_serialize members]

theorem collectItems_serialize :
    ∀ items : List Tree, Datum.collectItems (serializeItems items) = toDatumItems items
  | [] =>
      rfl
  | item :: items => by
      rw [serializeItems, toDatumItems, Datum.collectItems, collect_serialize item,
        collectItems_serialize items]

theorem collectFields_serialize :
    ∀ members : List (String × Tree),
      Datum.collectFields (serializeMembers members) = toDatumFields members
  | [] =>
      rfl
  | (_, value) :: members => by
      rw [serializeMembers, toDatumFields, Datum.collectFields, collect_serialize value,
        collectFields_serialize members]

end

/-! ## Trees that spell data -/

/-- The tree of some data spells them. -/
theorem spelled_ofDatum
    {datum : Datum}
    (writable : datum.Writable) :
    datum.Spelled (ofDatum datum) := by
  induction writable with
  | null =>
      exact .null
  | boolean value =>
      exact .boolean value
  | integer _ _ =>
      exact .integer _
  | double _ =>
      exact .double _
  | text value =>
      exact .text (spells_encodeText value)
  | list _ ih =>
      rw [ofDatum, ofDatumItems_eq]
      exact .list (List.forall₂_map_right_iff.mpr (List.forall₂_same.mpr ih))
  | record _ ih =>
      rw [ofDatum, ofDatumFields_eq, ofMembers]
      refine .record ?_ ?_
      · rw [List.forall₂_map_right_iff]
        exact List.forall₂_same.mpr fun field _ => spells_encodeText field.1
      · rw [List.map_map, List.forall₂_map_left_iff, List.forall₂_map_right_iff]
        exact List.forall₂_same.mpr ih

/-- A tree with finite numbers tells what can be written. -/
theorem writable_serialize
    {tree : Tree}
    (finite : tree.AllNumbers (·.isFinite)) :
    tree.serialize.Writable := by
  induction finite with
  | null =>
      exact .null
  | boolean value =>
      exact .boolean value
  | @number n finite =>
      rw [serialize, serializeNumber]
      split
      · rename_i integer
        simp only [Bool.and_eq_true, decide_eq_true_eq] at integer
        have bound : Binary64.exactIntegerBound < 2 ^ 63 := by decide
        exact .integer (by omega) (by omega)
      · exact .double finite
  | string content =>
      exact .text _
  | array _ ih =>
      rw [serialize, serializeItems_eq]
      exact .list (List.forall_mem_map.mpr ih)
  | object _ ih =>
      rw [serialize, serializeMembers_eq]
      exact .record (List.forall_mem_map.mpr ih)

/-- A number is spelled without the sign of zero. -/
theorem decoded_of_spelled_number
    {n : Binary64} {again : Tree}
    (finite : n.isFinite)
    (spelled : (serializeNumber n).Spelled again) :
    again = normalNumber n := by
  rw [Writer.normalNumber_eq finite]
  unfold serializeNumber at spelled
  split at spelled
  · rename_i integer
    simp only [Bool.and_eq_true] at integer
    cases spelled with
    | integer =>
        rw [Binary64.ofInt_truncate integer.1]
  · rename_i notInteger
    cases spelled with
    | double =>
        have nonzero := Binary64.isZero_of_not_integer (by decide) notInteger
        rw [Binary64.unsignedZero]
        simp only [Binary64.signed_of_nonzero nonzero]

theorem map_eq_of_forall₂
    {α β γ : Type} {R : α → β → Prop} {f : α → γ} {g : β → γ} {items : List α}
    {items' : List β}
    (related : List.Forall₂ R items items')
    (each : ∀ item ∈ items, ∀ item', R item item' → g item' = f item) :
    items'.map g = items.map f := by
  induction related with
  | nil =>
      rfl
  | cons first _ ih =>
      obtain ⟨here, rest⟩ := List.forall_mem_cons.mp each
      rw [List.map_cons, List.map_cons, here _ first, ih rest]

/-- Every tree that spells what a tree tells means the same. -/
theorem decoded_of_spelled
    {tree : Tree}
    (apart : tree.KeysApart)
    (finite : tree.AllNumbers (·.isFinite)) :
    ∀ {again : Tree}, tree.serialize.Spelled again → again.decoded = tree.decoded.normal := by
  induction apart with
  | null | boolean _ =>
      intro again spelled
      cases spelled
      rfl
  | number n =>
      intro again spelled
      rw [decoded_of_spelled_number (allNumbers_number.mp finite) spelled]
      exact decoded_normalNumber n
  | string content =>
      intro again spelled
      cases spelled with
      | text spells =>
          rw [decoded, decoded, reread, reread, normal, decodeText_of_spells spells]
  | @array items _ ih =>
      intro again spelled
      rw [serialize, serializeItems_eq] at spelled
      cases spelled with
      | list each =>
          have finite := allNumbers_array.mp finite
          have same := map_eq_of_forall₂ (List.forall₂_map_left_iff.mp each)
            fun item mem tree spelled => ih item mem (finite item mem) spelled
          rw [decoded_array, decoded_array, normal, normalItems_eq, List.map_map, same]
          rfl
  | @object members apart _ ih =>
      intro again spelled
      rw [serialize, serializeMembers_eq] at spelled
      cases spelled with
      | @record _ pairs keys each =>
          have finite := allNumbers_object.mp finite
          have sameKeys := map_eq_of_forall₂ (List.forall₂_map_left_iff.mp keys)
            fun member mem pair spells => decodeText_of_spells spells
          rw [List.map_map, List.forall₂_map_left_iff, List.forall₂_map_right_iff] at each
          have sameValues := map_eq_of_forall₂ each
            fun member mem pair spelled => ih member mem (finite member mem) spelled
          have same : (pairs.map fun pair => (decodeText pair.1, pair.2.decoded)) =
              members.map fun member => (decodeText member.1, member.2.decoded.normal) := by
            rw [← List.zip_map', sameKeys, sameValues, List.zip_map']
          have keysApart : (pairs.map Prod.fst).Nodup := by
            refine List.Nodup.of_map decodeText ?_
            rw [List.map_map]
            exact sameKeys ▸ apart
          rw [decoded_object, decoded_object, normal, normalMembers_eq,
            Members.map_ofList normal, Members.ofList_map_ofList keysApart, same, List.map_map]
          · rfl
          · rw [same, List.map_map]
            exact apart
          · rw [List.map_map]
            exact apart

end Tree
end JsonDoc
