import JsonDoc.Proofs.Schema.Meaning
import JsonDoc.Proofs.Tree.Extension
import JsonDoc.Proofs.Tree.Rekeying

/-!
# Trees that differ under some keys

Two trees are near if they differ in members under free keys only, and not at all under held keys.
Where one looks neither at the one nor at the other kind of keys, near trees look the same.

If what is free for one relation is held for the other, trees that are near by both are the same:
`eq_of_near`.
-/

namespace JsonDoc

namespace Members

variable {α : Type} {members members' : Members α}

/-- Members in order are the same if every key holds the same. -/
theorem Sorted.ext
    (sorted : members.Sorted)
    (sorted' : members'.Sorted)
    (same : ∀ key, members.get? key = members'.get? key) :
    members = members' := by
  refine sorted.eq_of_perm sorted' ((List.perm_ext_iff_of_nodup sorted.nodup sorted'.nodup).mpr ?_)
  rintro ⟨key, value⟩
  constructor
  · exact fun mem => mem_of_get? ((same key).symm.trans (sorted.get?_of_mem mem))
  · exact fun mem => mem_of_get? ((same key).trans (sorted'.get?_of_mem mem))

end Members

namespace Tree

/-- The trees are the same but for members under free keys, and have the same members under held
keys. -/
inductive Near (free held : String → Prop) : Tree → Tree → Prop
  | null : Near free held .null .null
  | boolean (value : Bool) : Near free held (.boolean value) (.boolean value)
  | number (value : Binary64) : Near free held (.number value) (.number value)
  | string (content : String) : Near free held (.string content) (.string content)
  | array {items items' : List Tree} :
      items.length = items'.length →
      (∀ (i : Nat) (a b : Tree), items[i]? = some a → items'[i]? = some b → Near free held a b) →
      Near free held (.array items) (.array items')
  | object {members members' : Members Tree} :
      (∀ key, ¬ free key → members.contains key = members'.contains key) →
      (∀ key, held key → members.get? key = members'.get? key) →
      (∀ (key : String) (a b : Tree), ¬ free key → members.get? key = some a →
        members'.get? key = some b → Near free held a b) →
      Near free held (.object members) (.object members')

/-- Members that differ under free keys, here or below. -/
def MembersNear
    (free held : String → Prop)
    (members members' : Members Tree) : Prop :=
  Near free held (.object members) (.object members')

section Near

variable {free held : String → Prop} {a b c : Tree}

theorem Near.refl
    (tree : Tree) :
    Near free held tree tree := by
  -- members may stand under equal keys in any tree, so the induction is on the height
  suffices low : ∀ height (tree : Tree), tree.height ≤ height → Near free held tree tree from
    low tree.height tree (Nat.le_refl _)
  intro height
  induction height with
  | zero =>
      intro tree low
      cases tree <;> simp [Tree.height] at low
  | succ height ih =>
      intro tree low
      cases tree with
      | null =>
          exact .null
      | boolean value =>
          exact .boolean value
      | number value =>
          exact .number value
      | string content =>
          exact .string content
      | array items =>
          refine .array rfl ?_
          intro i a b ha hb
          cases ha.symm.trans hb
          have lower := height_le_heightItems (List.mem_of_getElem? ha)
          rw [Tree.height] at low
          exact ih a (by omega)
      | object members =>
          refine .object (fun _ _ => rfl) (fun _ _ => rfl) ?_
          intro key a b _ ha hb
          cases ha.symm.trans hb
          have lower := height_le_heightMembers (Members.mem_of_get? ha)
          rw [Tree.height] at low
          exact ih a (by omega)

theorem Near.symm
    (h : Near free held a b) :
    Near free held b a := by
  induction h with
  | null =>
      exact .null
  | boolean value =>
      exact .boolean value
  | number value =>
      exact .number value
  | string content =>
      exact .string content
  | array same _ ih =>
      exact .array same.symm fun i a b ha hb => ih i b a hb ha
  | object keys same _ ih =>
      exact .object (fun key kept => (keys key kept).symm)
        (fun key isHeld => (same key isHeld).symm)
        fun key a b kept ha hb => ih key b a kept hb ha

theorem Near.trans
    (h : Near free held a b)
    (k : Near free held b c) :
    Near free held a c := by
  induction h generalizing c with
  | null | boolean _ | number _ | string _ =>
      exact k
  | array same items ih =>
      cases k with
      | array same' items' =>
          refine .array (same.trans same') ?_
          intro i a c ha hc
          obtain ⟨inside, _⟩ := List.getElem?_eq_some_iff.mp ha
          have hb := List.getElem?_eq_getElem (same ▸ inside)
          exact ih i a _ ha hb (items' i _ c hb hc)
  | object keys same _ ih =>
      cases k with
      | object keys' same' members' =>
          refine .object (fun key kept => (keys key kept).trans (keys' key kept))
            (fun key isHeld => (same key isHeld).trans (same' key isHeld)) ?_
          intro key a c kept ha hc
          obtain ⟨b, hb⟩ := Option.isSome_iff_exists.mp
            ((keys key kept).symm.trans (Members.contains_of_get? ha))
          exact ih key a b kept ha hb (members' key b c kept hb hc)

/-- Trees that differ only under keys under which they do not differ are the same. -/
theorem eq_of_near
    (h : Near free held a b)
    (k : Near held free a b)
    (ordered : a.Ordered)
    (ordered' : b.Ordered) :
    a = b := by
  induction h with
  | null | boolean | number | string =>
      rfl
  | @array items items' same _ ih =>
      cases k with
      | array _ items'' =>
          refine congrArg Tree.array (List.ext_getElem same ?_)
          intro i inside inside'
          have ha := List.getElem?_eq_getElem inside
          have hb := List.getElem?_eq_getElem inside'
          exact ih i _ _ ha hb (items'' i _ _ ha hb) (ordered.item (List.getElem_mem inside))
            (ordered'.item (List.getElem_mem inside'))
  | @object members members' keys same _ ih =>
      cases k with
      | object _ same' members'' =>
          refine congrArg Tree.object (ordered.sorted.ext ordered'.sorted fun key => ?_)
          by_cases isFree : free key
          · exact same' key isFree
          · by_cases isHeld : held key
            · exact same key isHeld
            · have there := keys key isFree
              cases ha : Members.get? members key with
              | none =>
                  simp only [Members.contains, ha, Option.isSome_none] at there
                  exact (Option.isNone_iff_eq_none.mp (by simpa using there.symm)).symm
              | some a =>
                  obtain ⟨b, hb⟩ := Option.isSome_iff_exists.mp
                    (there.symm.trans (Members.contains_of_get? ha))
                  rw [hb, ih key a b isFree ha hb (members'' key a b isHeld ha hb)
                    (ordered.member ha) (ordered'.member hb)]

/-- Arrays are near item by item. -/
theorem near_array_iff
    {items : List Tree} {tree : Tree} :
    Near free held (.array items) tree ↔ ∃ items', tree = .array items' ∧
      List.Forall₂ (Near free held) items items' := by
  constructor
  · intro h
    cases h with
    | @array _ items' same all =>
        exact ⟨items', rfl, forall₂_iff_getElem?.mpr ⟨same, all⟩⟩
  · rintro ⟨items', rfl, each⟩
    obtain ⟨same, all⟩ := forall₂_iff_getElem?.mp each
    exact .array same all

end Near

/-! ## Members -/

namespace MembersNear

variable {free held : String → Prop} {members members' : Members Tree} {key : String}

/-- A key that is not free is there in both or in neither. -/
theorem contains
    (h : MembersNear free held members members')
    (kept : ¬ free key) :
    members.contains key = members'.contains key := by
  cases h with
  | object keys _ _ =>
      exact keys key kept

theorem get?_held
    (h : MembersNear free held members members')
    (isHeld : held key) :
    members.get? key = members'.get? key := by
  cases h with
  | object _ same _ =>
      exact same key isHeld

theorem near
    (h : MembersNear free held members members')
    (kept : ¬ free key)
    {a b : Tree}
    (ha : members.get? key = some a)
    (hb : members'.get? key = some b) :
    Near free held a b := by
  cases h with
  | object _ _ near =>
      exact near key a b kept ha hb

/-- The same member is put into both. -/
theorem insert
    (h : MembersNear free held members members')
    (key : String)
    (value : Tree) :
    MembersNear free held (members.insert key value) (members'.insert key value) := by
  refine .object ?_ ?_ ?_
  · intro other kept
    simp only [Members.contains, Members.get?_insert]
    split
    · rfl
    · exact h.contains kept
  · intro other isHeld
    simp only [Members.get?_insert, h.get?_held isHeld]
  · intro other a b kept ha hb
    rw [Members.get?_insert] at ha hb
    split at ha
    · rename_i same
      rw [if_pos same] at hb
      cases ha
      cases hb
      exact .refl _
    · rename_i apart
      rw [if_neg apart] at hb
      exact h.near kept ha hb

/-- A member is replaced in both. -/
theorem replace
    (h : MembersNear free held members members')
    {a b : Tree}
    (near : Near free held a b)
    (same : held key → a = b) :
    MembersNear free held (members.replace key a) (members'.replace key b) := by
  refine .object ?_ ?_ ?_
  · intro other kept
    rw [Members.contains_replace, Members.contains_replace]
    exact h.contains kept
  · intro other isHeld
    rw [Members.get?_replace, Members.get?_replace]
    split
    · rename_i here
      rw [h.get?_held (here ▸ isHeld), same (here ▸ isHeld)]
    · exact h.get?_held isHeld
  · intro other c d kept hc hd
    rw [Members.get?_replace] at hc hd
    split at hc
    · rename_i here
      rw [if_pos here] at hd
      obtain ⟨_, _, rfl⟩ := Option.map_eq_some_iff.mp hc
      obtain ⟨_, _, rfl⟩ := Option.map_eq_some_iff.mp hd
      exact near
    · rename_i apart
      rw [if_neg apart] at hd
      exact h.near kept hc hd

/-- A member that is not held changes. -/
theorem of_replace
    (ordered : (Tree.object members).Ordered)
    {a b : Tree}
    (here : members.get? key = some a)
    (near : Near free held a b)
    (notHeld : ¬ held key) :
    MembersNear free held members (members.replace key b) := by
  have both : MembersNear free held (members.replace key a) (members.replace key b) :=
    replace (.refl _) near fun isHeld => absurd isHeld notHeld
  rwa [Members.replace_get? ordered.sorted here] at both

/-- A member is put in under a free key. -/
theorem of_insert
    (isFree : free key)
    (notHeld : ¬ held key)
    (value : Tree) :
    MembersNear free held members (members.insert key value) := by
  have apart {other : String} (kept : ¬ free other) : key ≠ other := by
    rintro rfl
    exact kept isFree
  refine .object ?_ ?_ ?_
  · intro other kept
    simp only [Members.contains, Members.get?_insert, if_neg (apart kept)]
  · intro other isHeld
    have notHere : key ≠ other := by
      rintro rfl
      exact notHeld isHeld
    rw [Members.get?_insert, if_neg notHere]
  · intro other a b kept ha hb
    rw [Members.get?_insert, if_neg (apart kept)] at hb
    cases ha.symm.trans hb
    exact .refl _

end MembersNear

end Tree
end JsonDoc
