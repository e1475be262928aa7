import PlcLang.Number.Decimal

/-!
# Numerals of integers

Integers are unbounded, but the numerals that are read and written are not: one with too many digits
is neither turned into an integer nor written for one. Decimals have no such bound.

* `Numeral.limit`: the greatest number of digits.
* `Numeral.Fits`: the integer has a numeral.
-/

namespace PlcLang.Numeral

/-- The greatest number of digits of a numeral. -/
def limit : Nat := 4300

/-- The numeral of the integer is not too long. -/
def Fits (i : Int) : Prop := (Decimal.digits i.natAbs).length ≤ limit

instance (i : Int) : Decidable (Fits i) := inferInstanceAs (Decidable (_ ≤ _))

/-- The numeral of an integer. -/
def text? (i : Int) : Option String := if Fits i then some (toString i) else none

end PlcLang.Numeral
