import PlcLang.Fault
import PlcLang.Number.Word
import PlcLang.Operator

/-!
# Arithmetic

Integers are computed in the 32-bit range, decimals in double precision. A quotient of decimals is
rounded to one fractional digit.

* `Word.operate`, `Decimal.operate`: the four operations.
* `Word.raised`, `Decimal.raised`: powers with an integer exponent.
-/

namespace PlcLang

namespace Word

/-- The four operations; a division by zero is refused. -/
def operate (op : Operator) (a b : Int) : Except Fault Int :=
  match op with
  | .plus => .ok (wrap (a + b))
  | .minus => .ok (wrap (a - b))
  | .times => .ok (wrap (a * b))
  | .divide => if b = 0 then .error .divisionByZero else .ok (quotient a b)
  | op => .error (.unknownOperator op.symbol)

/-- A power; a negative exponent is refused. -/
def raised (base exponent : Int) : Except Fault Int :=
  if exponent < 0 then .error (.negativeExponent exponent) else .ok (power base exponent.toNat)

end Word

namespace Decimal

/-- The number of digits that a quotient may have. -/
def precision : Nat := 28

/-- A result in double precision as a decimal. -/
def ofResult (x : Float) : Except Fault Decimal :=
  match Double.toDecimal? x with
  | some d => .ok d
  | none => .error (.resultRange x)

/-- A quotient in double precision, rounded to one fractional digit. -/
def ofQuotient (x : Float) : Except Fault Decimal := do
  match (← ofResult x).quantize? precision (-1) with
  | some d => .ok d
  | none => .error (.resultRange x)

/-- The four operations. -/
def operate (op : Operator) (a b : Decimal) : Except Fault Decimal :=
  let x := Double.ofDecimal a
  let y := Double.ofDecimal b
  match op with
  | .plus => ofResult (x + y)
  | .minus => ofResult (x - y)
  | .times => ofResult (x * y)
  | .divide => if y == 0 then .error .divisionByZero else ofQuotient (x / y)
  | op => .error (.unknownOperator op.symbol)

/-- A power in double precision. -/
def raised (base : Decimal) (exponent : Int) : Except Fault Decimal :=
  let x := Double.ofDecimal base
  let y := Double.ofInt exponent
  let result := x.pow y
  if !y.isFinite then .error .overflow
  else if x.isFinite && !result.isFinite then
    .error (if x == 0 then .divisionByZero else .overflow)
  else ofResult result

end Decimal

end PlcLang
