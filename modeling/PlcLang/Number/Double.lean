import PlcLang.Number.Decimal

/-!
# Doubles

Arithmetic on decimals is carried out on doubles. A result becomes a decimal again through the
shortest digits that read back as the same double.

* `Double.ofDecimal`, `Double.ofInt`: the nearest double.
* `Double.shortest`: the shortest digits, by exact arithmetic on mantissa and exponent.
* `Double.text`: those digits, positional between `10 ^ (-4)` and `10 ^ 16`, scientific elsewhere.
* `Double.toDecimal?`: the decimal that this text denotes.
-/

namespace PlcLang.Double

/-! ## From decimals -/

/-- The double nearest to a decimal, an infinity when it is too large. -/
def ofDecimal : Decimal → Float
  | .finite negative c e =>
    let adjusted := e + (Decimal.digits c).length
    let x : Float :=
      if c = 0 ∨ adjusted < -400 then 0
      else if 400 < adjusted then 1 / 0
      else Float.ofScientific c (e < 0) e.natAbs
    if negative then -x else x
  | .infinite negative => if negative then -1 / 0 else 1 / 0
  | .nan => 0 / 0

/-- The double nearest to an integer, an infinity when it is too large. -/
def ofInt (i : Int) : Float := ofDecimal (.finite (i < 0) i.natAbs 0)

/-! ## Binary form -/

/-- The double carries a minus sign. -/
def isNegative (x : Float) : Bool := x.toBits.toNat / Nat.pow 2 63 = 1

/-- The biased exponent. -/
def biasedExponent (x : Float) : Nat := x.toBits.toNat / Nat.pow 2 52 % Nat.pow 2 11

/-- The stored fraction. -/
def fraction (x : Float) : Nat := x.toBits.toNat % Nat.pow 2 52

/-- The magnitude of a finite double is `mantissa · 2 ^ power`. -/
def mantissa (x : Float) : Nat :=
  if biasedExponent x = 0 then fraction x else fraction x + Nat.pow 2 52

/-- The power of two that the mantissa is multiplied with. -/
def power (x : Float) : Int :=
  if biasedExponent x = 0 then -1074 else biasedExponent x - 1075

/-! ## Shortest digits -/

/-- The number of digits before the point of `n / d`, negative when zeros follow the point. -/
def magnitude (n d : Nat) : Int :=
  if d ≤ n then (Decimal.digits (n / d)).length else 1 - (Decimal.digits ((d - 1) / n)).length

/-- The nearest of the two neighbours of `n / d`, the even one of two equally near. -/
def nearest (n d : Nat) : Nat := Decimal.divideHalfEven n d

/-- The neighbour of `n / d` that lies between `low / d` and `high / d`, the nearer of two; the ends
belong to the interval if `closed`. -/
def neighbour? (low n high d : Nat) (closed : Bool) : Option Nat :=
  let q := n / d
  let inside (k : Nat) : Bool :=
    if closed then low ≤ k * d && k * d ≤ high else low < k * d && k * d < high
  if inside q then if inside (q + 1) then some (nearest n d) else some q
  else if inside (q + 1) then some (q + 1) else none

/-- At most `n` digits and the power of ten of the last of them; a power of ten has one digit. -/
def carried (n : Nat) (d : Nat) (k : Int) : Nat × Int :=
  if d = Nat.pow 10 n then (1, k + n) else (d, k)

/-- The digits of the magnitude of a finite, non-zero double and the power of ten of the last of
them: the fewest digits that read back, at most seventeen. -/
def shortest (x : Float) : Nat × Int :=
  let m := mantissa x
  let low := if fraction x = 0 ∧ 1 < biasedExponent x then 4 * m - 1 else 4 * m - 2
  let closed := m % 2 = 0
  let s := power x - 2
  let size := magnitude (4 * m * Nat.pow 2 s.toNat) (Nat.pow 2 (-s).toNat)
  let times (k : Int) : Nat := Nat.pow 2 s.toNat * Nat.pow 10 (-k).toNat
  let grid (k : Int) : Nat := Nat.pow 2 (-s).toNat * Nat.pow 10 k.toNat
  let attempt (n : Nat) : Option (Nat × Int) :=
    let k := size - n
    (neighbour? (low * times k) (4 * m * times k) ((4 * m + 2) * times k) (grid k) closed).map
      (carried n · k)
  match (List.range' 1 16).findSome? attempt with
  | some found => found
  | none => carried 17 (nearest (4 * m * times (size - 17)) (grid (size - 17))) (size - 17)

/-! ## Text -/

/-- The digits are written in positional notation. -/
def isPositional (d : Nat) (k : Int) : Bool :=
  let size := k + (Decimal.digits d).length
  size ≤ 16 && -4 < size

/-- The decimal that the text of a finite double denotes. -/
def decimal (x : Float) : Decimal :=
  if mantissa x = 0 then .finite (isNegative x) 0 (-1)
  else
    let (d, k) := shortest x
    if isPositional d k && 0 ≤ k then .finite (isNegative x) (d * Nat.pow 10 (k.toNat + 1)) (-1)
    else .finite (isNegative x) d k

/-- The text of a double. -/
def text (x : Float) : String :=
  if x.isNaN then "nan"
  else if x.isInf then if isNegative x then "-inf" else "inf"
  else if mantissa x = 0 then (decimal x).plain
  else
    let (d, k) := shortest x
    if isPositional d k then (decimal x).plain
    else String.ofList (Decimal.signText (isNegative x) ++ Decimal.scientific 'e' 2 d k)

/-- The result of an operation as a decimal, a zero without its sign; only finite results have
one. -/
def toDecimal? (x : Float) : Option Decimal :=
  if x.isFinite then some (decimal x).unsignedZero else none

end PlcLang.Double
