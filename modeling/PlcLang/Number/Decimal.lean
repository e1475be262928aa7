/-!
# Decimals

A decimal keeps the sign, the digits and the exponent with which it was written, so `1.50` differs
from `1.5` as a decimal and equals it as a number.

* `Decimal.plain`: positional notation.
* `Decimal.text`: positional notation where it is short, scientific notation elsewhere.
* `Decimal.ofText?`: reads both notations.
-/

namespace PlcLang

/-- A decimal: the finite ones denote `± coefficient · 10 ^ exponent`. -/
inductive Decimal where
  /-- A sign, a coefficient and an exponent. -/
  | finite (negative : Bool) (coefficient : Nat) (exponent : Int)
  /-- An infinity. -/
  | infinite (negative : Bool)
  /-- Not a number. -/
  | nan
  deriving DecidableEq, Inhabited

namespace Decimal

/-- The digits of a natural number, at least one. -/
def digits (n : Nat) : List Char := Nat.toDigits 10 n

/-- The number that a list of digits denotes. -/
def ofDigits (ds : List Char) : Nat :=
  ds.foldl (fun n d => 10 * n + (d.toNat - '0'.toNat)) 0

/-- The sign as it is written. -/
def signText (negative : Bool) : List Char := if negative then ['-'] else []

/-- The decimal that `whole.fraction` denotes. -/
def ofParts (negative : Bool) (whole fraction : List Char) : Decimal :=
  finite negative (ofDigits (whole ++ fraction)) (-(fraction.length : Int))

/-! ## Notations -/

/-- A coefficient with a point before its last `places` digits. -/
def pointed (coefficient places : Nat) : List Char :=
  let ds := digits coefficient
  let ds := List.replicate (places + 1 - ds.length) '0' ++ ds
  if places = 0 then ds
  else ds.take (ds.length - places) ++ '.' :: ds.drop (ds.length - places)

/-- A first digit, the other digits after a point, and an exponent with its sign. -/
def scientific (mark : Char) (width : Nat) (coefficient : Nat) (exponent : Int) : List Char :=
  let ds := digits coefficient
  let adjusted := exponent + ds.length - 1
  let size := digits adjusted.natAbs
  ds.take 1 ++ (if ds.length = 1 then [] else '.' :: ds.drop 1) ++
    mark :: (if adjusted < 0 then '-' else '+') ::
      (List.replicate (width - size.length) '0' ++ size)

/-- Positional notation: exactly as many fractional digits as the exponent asks for. -/
def plain : Decimal → String
  | finite negative c e =>
    String.ofList <| signText negative ++
      if e ≤ 0 then pointed c e.natAbs
      else if c = 0 then ['0'] else digits c ++ List.replicate e.toNat '0'
  | infinite negative => String.ofList (signText negative ++ "Infinity".toList)
  | nan => "NaN"

/-- Positional notation unless the exponent is positive or the number starts after the sixth
fractional digit. -/
def text : Decimal → String
  | d@(finite negative c e) =>
    if e ≤ 0 ∧ -6 ≤ e + (digits c).length - 1 then d.plain
    else String.ofList (signText negative ++ scientific 'E' 1 c e)
  | d => d.plain

/-! ## Reading -/

/-- A sign and the rest. -/
def readSign : List Char → Bool × List Char
  | '-' :: rest => (true, rest)
  | '+' :: rest => (false, rest)
  | cs => (false, cs)

/-- The exponent after a mark, if nothing else follows. -/
def readExponent : List Char → Option Int
  | [] => some 0
  | c :: rest =>
    if c = 'e' ∨ c = 'E' then
      let (negative, ds) := readSign rest
      if ds ≠ [] ∧ ds.all Char.isDigit then
        some (if negative then -(ofDigits ds : Int) else ofDigits ds)
      else none
    else none

/-- The decimal that a numeral in either notation denotes. -/
def ofText? (s : String) : Option Decimal :=
  let (negative, cs) := readSign s.toList
  match String.ofList (cs.map Char.toLower) with
  | "inf" | "infinity" => some (infinite negative)
  | "nan" => some nan
  | _ =>
    let whole := cs.takeWhile Char.isDigit
    let rest := cs.dropWhile Char.isDigit
    let (fraction, rest) :=
      match rest with
      | '.' :: rest => (rest.takeWhile Char.isDigit, rest.dropWhile Char.isDigit)
      | _ => ([], rest)
    if whole = [] ∧ fraction = [] then none
    else
      (readExponent rest).map fun e =>
        finite negative (ofDigits (whole ++ fraction)) (e - fraction.length)

/-! ## Size -/

/-- The decimal is zero, of either sign. -/
def isZero : Decimal → Bool
  | finite _ c _ => c = 0
  | _ => false

/-- The decimal without its sign if it is zero. -/
def unsignedZero : Decimal → Decimal
  | finite negative c e => finite (negative && c ≠ 0) c e
  | d => d

/-- The place of the first digit of `c · 10 ^ e`, counted to the left from the point. -/
def leading (c : Nat) (e : Int) : Int := e + (digits c).length

/-- How the positive numbers `c · 10 ^ e` and `d · 10 ^ f` compare: by the places of their first
digits, and digit by digit if these agree. -/
def compareSizes (c : Nat) (e : Int) (d : Nat) (f : Int) : Ordering :=
  (compare (leading c e) (leading d f)).then
    (compare (c * Nat.pow 10 (e - f).toNat) (d * Nat.pow 10 (f - e).toNat))

/-- A coefficient with its sign. -/
def signed (negative : Bool) (c : Nat) : Int := if negative then -c else c

/-- How two decimals compare as numbers; a value that is no number compares with none. -/
def compare? : Decimal → Decimal → Option Ordering
  | finite s c e, finite t d f =>
    some <|
      if c = 0 ∨ d = 0 ∨ s ≠ t then compare (signed s c) (signed t d)
      else if s then compareSizes d f c e
      else compareSizes c e d f
  | infinite s, infinite t => some (if s = t then .eq else if s then .lt else .gt)
  | infinite s, finite .. => some (if s then .lt else .gt)
  | finite .., infinite t => some (if t then .gt else .lt)
  | _, _ => none

/-! ## Rounding -/

/-- The quotient rounded to the nearest integer, a tie to the even one. -/
def divideHalfEven (n d : Nat) : Nat :=
  let q := n / d
  let twice := 2 * (n % d)
  if twice < d then q else if d < twice then q + 1 else if q % 2 = 0 then q else q + 1

/-- The decimal at the given exponent, rounded half to even, if it has at most `precision`
digits there. -/
def quantize? (precision : Nat) (exponent : Int) : Decimal → Option Decimal
  | finite negative c e =>
    let c :=
      if exponent ≤ e then c * Nat.pow 10 (e - exponent).toNat
      else divideHalfEven c (Nat.pow 10 (exponent - e).toNat)
    if (digits c).length ≤ precision then some (finite negative c exponent) else none
  | _ => none

end Decimal

end PlcLang
