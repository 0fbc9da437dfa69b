import JsonDoc.Tree.Basic

/-!
# Equality of trees

Two trees are equal when they have the same shape, keys and strings, and their numbers are equal
up to rounding. Schemas compare values in this way.
-/

namespace JsonDoc
namespace Tree

mutual

/-- Equality with numbers compared by `Binary64.approxEq`. -/
def approxEq : Tree → Tree → Bool
  | null, null => true
  | boolean a, boolean b => a == b
  | number a, number b => a.approxEq b
  | string a, string b => a == b
  | array a, array b => approxEqItems a b
  | object a, object b => approxEqMembers a b
  | _, _ => false

/-- Equality of arrays, item by item. -/
def approxEqItems : List Tree → List Tree → Bool
  | [], [] => true
  | a :: as, b :: bs => approxEq a b && approxEqItems as bs
  | _, _ => false

/-- Equality of objects, member by member. -/
def approxEqMembers : List (String × Tree) → List (String × Tree) → Bool
  | [], [] => true
  | (k, a) :: as, (l, b) :: bs => k == l && approxEq a b && approxEqMembers as bs
  | _, _ => false

end

end Tree
end JsonDoc
