import PlcLang.Value.Text

/-!
# Equality and order of scalars

Two scalars are equal if they have the same type and the same content; decimals are compared as
numbers.

* `Scalar.same`, `Scalar.less`: scalars of one type.
* `Scalar.unordered`: decimals that have no order.
-/

namespace PlcLang

namespace Scalar

/-- The scalars have the same type and the same content. -/
def same : Scalar → Scalar → Bool
  | nil, nil => true
  | boolean a, boolean b => a = b
  | integer a, integer b => a = b
  | decimal a, decimal b => a.compare? b = some .eq
  | character a, character b => a = b
  | string a, string b => a = b
  | _, _ => false

/-- The first scalar comes before the second, if both have the same ordered type. -/
def less : Scalar → Scalar → Bool
  | boolean a, boolean b => !a && b
  | integer a, integer b => a < b
  | decimal a, decimal b => a.compare? b = some .lt
  | character a, character b => a < b
  | string a, string b => a < b
  | _, _ => false

/-- The scalars are decimals, and one of them is no number. -/
def unordered : Scalar → Scalar → Bool
  | decimal a, decimal b => (a.compare? b).isNone
  | _, _ => false

end Scalar

end PlcLang
