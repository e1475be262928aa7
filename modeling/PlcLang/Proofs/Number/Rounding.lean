import Mathlib.Algebra.Order.Field.Power
import Mathlib.Data.List.TakeWhile
import Mathlib.Data.Rat.Cast.Order
import Mathlib.Tactic.FieldSimp
import Mathlib.Tactic.Linarith
import PlcLang.Proofs.Grammar.Unique
import PlcLang.Proofs.Number.Shortest
import PlcLang.Value.Text

/-!
# Decimals with one fractional digit

Decimals with few digits are rounded to the nearest tenth, to the even one of two. The text of a decimal
reads back.

* `Decimal.toRat`: the number that a decimal denotes.
* `Decimal.IsNearest`: the nearest natural number.
* `Decimal.RoundsTo`: a decimal with one fractional digit that rounds another one.
* `Decimal.quantize?_tenths`: when there is one.
* `Decimal.ofText?_plain`: texts of decimals.
-/

namespace PlcLang.Decimal

/-- The number that a decimal denotes, zero if it denotes none. -/
def toRat : Decimal → ℚ
  | finite negative c e => (if negative then -1 else 1) * (c * 10 ^ e)
  | _ => 0

variable {negative : Bool} {c d n v : Nat} {e : Int} {x : ℚ}

theorem abs_toRat : |(finite negative c e).toRat| = (c : ℚ) * 10 ^ e := by
  have hsize : (0 : ℚ) ≤ c * 10 ^ e := by positivity
  cases negative <;> simp [toRat, abs_of_nonneg hsize]

/-- Decimals of the same sign differ by as much as their sizes. -/
theorem abs_toRat_sub {d : Nat} {f : Int} :
    |(finite negative d f).toRat - (finite negative c e).toRat| = |(d : ℚ) * 10 ^ f - c * 10 ^ e| := by
  cases negative with
  | false => simp [toRat]
  | true =>
    rw [abs_sub_comm]
    simp [toRat, neg_add_eq_sub]

/-! ## The nearest number -/

/-- No natural number is nearer, and if another one is as near, this one is even. -/
structure IsNearest (x : ℚ) (v : Nat) : Prop where
  near : |v - x| ≤ 1 / 2
  /-- The even one of two. -/
  even : |v - x| = 1 / 2 → v % 2 = 0

theorem isNearest_of_lt (h : |v - x| < 1 / 2) : IsNearest x v := ⟨h.le, fun heq => absurd heq h.ne⟩

theorem isNearest_self (v : Nat) : IsNearest v v := isNearest_of_lt (by norm_num)

theorem isNearest_divideHalfEven (hd : 0 < d) : IsNearest (n / d) (divideHalfEven n d) := by
  have hd' : (0 : ℚ) < d := Nat.cast_pos.mpr hd
  have hmod : n % d < d := Nat.mod_lt n hd
  have hn : (n : ℚ) = d * (n / d : Nat) + (n % d : Nat) := by exact_mod_cast (Nat.div_add_mod n d).symm
  unfold divideHalfEven
  dsimp only
  generalize n / d = q at hn ⊢
  generalize n % d = r at hn hmod ⊢
  -- the two candidates miss the quotient by `r / d` and by `1 - r / d`
  have hlow : (q : ℚ) - n / d = -(r / d) := by
    rw [hn]
    field_simp
    ring
  have hhigh : ((q + 1 : Nat) : ℚ) - n / d = 1 - r / d := by
    rw [Nat.cast_succ, add_sub_right_comm, hlow]
    ring
  have hnonneg : (0 : ℚ) ≤ r / d := by positivity
  have hlt : (r : ℚ) / d < 1 := (div_lt_one hd').mpr (Nat.cast_lt.mpr hmod)
  rcases Nat.lt_trichotomy (2 * r) d with hless | heq | hmore
  · have hhalf : (r : ℚ) / d < 1 / 2 := by
      rw [div_lt_div_iff₀ hd' two_pos]
      exact_mod_cast (by omega : r * 2 < 1 * d)
    rw [if_pos hless]
    refine isNearest_of_lt ?_
    rwa [hlow, abs_neg, abs_of_nonneg hnonneg]
  · have hhalf : (r : ℚ) / d = 1 / 2 := by
      rw [div_eq_div_iff hd'.ne' two_ne_zero]
      exact_mod_cast (by omega : r * 2 = 1 * d)
    rw [if_neg (by omega), if_neg (by omega)]
    split
    next heven => exact ⟨by rw [hlow, hhalf]; norm_num, fun _ => heven⟩
    next hodd => exact ⟨by rw [hhigh, hhalf]; norm_num, fun _ => by omega⟩
  · have hhalf : 1 / 2 < (r : ℚ) / d := by
      rw [div_lt_div_iff₀ two_pos hd']
      exact_mod_cast (by omega : 1 * d < r * 2)
    rw [if_neg (by omega), if_pos hmore]
    refine isNearest_of_lt ?_
    rw [hhigh, abs_of_pos (by linarith)]
    linarith

/-- No integer is nearer than the nearest natural number. -/
theorem IsNearest.le (h : IsNearest x v) (k : ℤ) : |v - x| ≤ |k - x| := by
  by_cases hk : k = v
  · rw [hk]
    rfl
  · have hstep : (1 : ℚ) ≤ |(k : ℚ) - v| := by
      exact_mod_cast Int.one_le_abs (sub_ne_zero.mpr hk)
    have htriangle : |(k : ℚ) - v| ≤ |k - x| + |v - x| := by
      rw [abs_sub_comm (v : ℚ) x]
      exact abs_sub_le _ _ _
    linarith [h.near]

/-! ## Rounding to tenths -/

theorem mul_zpow_sub_one_mul_ten (c k : Nat) : (c : ℚ) * 10 ^ ((k : Int) - 1) * 10 = (c * 10 ^ k : Nat) := by
  rw [zpow_sub_one₀ (by norm_num), zpow_natCast, Nat.cast_mul, Nat.cast_pow, Nat.cast_ofNat]
  ring

theorem mul_zpow_neg_sub_mul_ten (c k : Nat) : (c : ℚ) * 10 ^ (-1 - (k : Int)) * 10 = c / (10 ^ k : Nat) := by
  rw [zpow_sub₀ (by norm_num), zpow_natCast, zpow_neg_one, Nat.cast_pow, Nat.cast_ofNat]
  field_simp

theorem quantize?_of_le {precision : Nat} {exponent : Int} (hprecision : 0 < precision) (he : exponent ≤ e) :
    (finite negative c e).quantize? precision exponent =
      if c * 10 ^ (e - exponent).toNat < 10 ^ precision then
        some (finite negative (c * 10 ^ (e - exponent).toNat) exponent)
      else none := by
  unfold quantize?
  simp only [length_digits_le_iff hprecision, Nat.pow_eq, if_pos he]

theorem quantize?_of_lt {precision : Nat} {exponent : Int} (hprecision : 0 < precision) (he : e < exponent) :
    (finite negative c e).quantize? precision exponent =
      if divideHalfEven c (10 ^ (exponent - e).toNat) < 10 ^ precision then
        some (finite negative (divideHalfEven c (10 ^ (exponent - e).toNat)) exponent)
      else none := by
  unfold quantize?
  simp only [length_digits_le_iff hprecision, Nat.pow_eq, if_neg (not_le.mpr he)]

/-- Where no digit is lost the number of digits decides. -/
theorem quantize?_exact (negative : Bool) (c k : Nat) :
    ((c : ℚ) * 10 ^ ((k : Int) - 1) < 10 ^ 27 ∧
      (finite negative c (k - 1)).quantize? 28 (-1) = some (finite negative (c * 10 ^ k) (-1))) ∨
    ((10 : ℚ) ^ 27 ≤ c * 10 ^ ((k : Int) - 1) ∧ (finite negative c (k - 1)).quantize? 28 (-1) = none) := by
  have hsize : (c : ℚ) * 10 ^ ((k : Int) - 1) < 10 ^ 27 ↔ c * 10 ^ k < 10 ^ 28 := by
    rw [← @Nat.cast_lt ℚ, ← mul_zpow_sub_one_mul_ten, Nat.cast_pow, Nat.cast_ofNat]
    constructor <;> intro h <;> linarith
  have hexponent : ((k : Int) - 1 - -1).toNat = k := by omega
  rw [quantize?_of_le (by decide) (by omega), hexponent]
  by_cases hlt : c * 10 ^ k < 10 ^ 28
  · exact .inl ⟨hsize.mpr hlt, if_pos hlt⟩
  · exact .inr ⟨not_lt.mp (mt hsize.mp hlt), if_neg hlt⟩

/-- Seventeen digits are not rounded to more than eighteen. -/
theorem quantize?_rounded (negative : Bool) (k : Nat) (hc : c < 10 ^ 17) :
    (c : ℚ) * 10 ^ (-1 - ((k + 1 : Nat) : Int)) < 10 ^ 27 ∧
      (finite negative c (-1 - (k + 1 : Nat))).quantize? 28 (-1) =
        some (finite negative (divideHalfEven c (10 ^ (k + 1))) (-1)) := by
  have hexponent : (-1 - (-1 - ((k + 1 : Nat) : Int))).toNat = k + 1 := by omega
  have hle := divideHalfEven_le c (10 ^ (k + 1))
  have hdiv := Nat.div_le_self c (10 ^ (k + 1))
  have hc' : (c : ℚ) < 10 ^ 17 := by exact_mod_cast hc
  have hone : (1 : ℚ) ≤ (10 ^ (k + 1) : Nat) := by exact_mod_cast Nat.one_le_pow _ _ (by decide)
  have hquotient : (c : ℚ) / (10 ^ (k + 1) : Nat) ≤ c := div_le_self (by positivity) hone
  rw [← mul_zpow_neg_sub_mul_ten] at hquotient
  rw [quantize?_of_lt (by decide) (by omega), hexponent]
  exact ⟨by linarith, if_pos (by omega)⟩

/-- **Decimals with few digits are rounded** unless they are too large. -/
theorem quantize?_tenths (negative : Bool) (h : -1 ≤ e ∨ c < 10 ^ 17) :
    ((c : ℚ) * 10 ^ e < 10 ^ 27 ∧ ∃ d, (finite negative c e).quantize? 28 (-1) = some (finite negative d (-1)) ∧
      IsNearest (c * 10 ^ e * 10) d) ∨
    ((10 : ℚ) ^ 27 ≤ c * 10 ^ e ∧ (finite negative c e).quantize? 28 (-1) = none) := by
  by_cases he : -1 ≤ e
  · obtain ⟨k, hk⟩ := Int.eq_ofNat_of_zero_le (by omega : 0 ≤ e + 1)
    obtain rfl : e = (k : Int) - 1 := by omega
    refine (quantize?_exact negative c k).imp_left fun ⟨hsize, hd⟩ => ⟨hsize, _, hd, ?_⟩
    rw [mul_zpow_sub_one_mul_ten]
    exact isNearest_self _
  · obtain ⟨k, hk⟩ := Int.eq_ofNat_of_zero_le (by omega : 0 ≤ -2 - e)
    obtain rfl : e = -1 - ((k + 1 : Nat) : Int) := by omega
    obtain ⟨hsize, hd⟩ := quantize?_rounded negative k (h.resolve_left he)
    refine .inl ⟨hsize, _, hd, ?_⟩
    rw [mul_zpow_neg_sub_mul_ten]
    exact isNearest_divideHalfEven (by positivity)

/-- Of two tenths that are equally near the even one is taken. -/
example : (finite true 25 (-2)).quantize? 28 (-1) = some (finite true 2 (-1)) := by decide

/-! ## Texts -/

theorem plain_of_neg (he : e < 0) :
    ((finite negative c e).plain).toList = signText negative ++ pointed c e.natAbs := by
  rw [plain, String.toList_ofList, if_pos (Int.le_of_lt he)]

section

open Grammar

variable {ds : List Char} {k : Char}

theorem readSign_signText (hk : isDigit k = true) :
    readSign (signText negative ++ k :: ds) = (negative, k :: ds) := by
  cases negative with
  | true => rfl
  | false =>
    unfold readSign
    rw [signText, if_neg Bool.false_ne_true, List.nil_append]
    split
    next h =>
      cases h
      cases hk
    next h =>
      cases h
      cases hk
    next => rfl

theorem toLower_of_isDigit (hk : isDigit k = true) : k.toLower = k := by
  have hdigit := isDigit_iff.mp hk
  unfold Char.toLower
  refine dif_neg fun h => ?_
  have hupper : 65 ≤ k.toNat := UInt32.le_iff_toNat_le.mp h.1
  omega

/-- **The text of a decimal with a fraction reads back.** -/
theorem ofText?_plain (negative : Bool) (c : Nat) (he : e < 0) :
    ofText? (finite negative c e).plain = some (finite negative c e) := by
  obtain ⟨whole, fraction, hpointed, hwhole, hlength, hfraction, hvalue⟩ :=
    exists_pointed c (k := e.natAbs) (by omega)
  have hdigits : ∀ d ∈ whole, d.isDigit = true := hwhole.isDigit
  have htake : (whole ++ '.' :: fraction).takeWhile Char.isDigit = whole := by
    rw [List.takeWhile_append_of_pos hdigits, List.takeWhile_cons_of_neg (by decide), List.append_nil]
  have hdrop : (whole ++ '.' :: fraction).dropWhile Char.isDigit = '.' :: fraction := by
    rw [List.dropWhile_append_of_pos hdigits, List.dropWhile_cons_of_neg (by decide)]
  have hfractions : fraction.takeWhile Char.isDigit = fraction ∧ fraction.dropWhile Char.isDigit = [] :=
    ⟨List.takeWhile_eq_self_iff.mpr hfraction, List.dropWhile_eq_nil_iff.mpr hfraction⟩
  obtain ⟨k, ks, rfl⟩ := List.exists_cons_of_ne_nil hwhole.ne_nil
  have hk := hwhole.isDigit k List.mem_cons_self
  have hhead (s : String) (hs : s.toList.head? ≠ some k) :
      String.ofList ((k :: ks ++ '.' :: fraction).map Char.toLower) ≠ s := by
    rintro rfl
    exact hs (by simp [toLower_of_isDigit hk])
  have hletter {l : Char} (hl : isDigit l = false) : some l ≠ some k := by
    rintro ⟨⟩
    exact absurd hk (by rw [hl]; decide)
  unfold ofText?
  rw [plain_of_neg he, hpointed, List.cons_append, readSign_signText hk, ← List.cons_append]
  dsimp only
  split
  next h => exact absurd h (hhead _ (hletter rfl))
  next h => exact absurd h (hhead _ (hletter rfl))
  next h => exact absurd h (hhead _ (hletter rfl))
  next =>
    rw [htake, hdrop]
    change (if k :: ks = [] ∧ fraction.takeWhile Char.isDigit = [] then none
      else (readExponent (fraction.dropWhile Char.isDigit)).map fun e => finite negative
        (ofDigits (k :: ks ++ fraction.takeWhile Char.isDigit))
        (e - (fraction.takeWhile Char.isDigit).length)) = _
    rw [hfractions.1, hfractions.2, if_neg (fun h => nomatch h.1), hvalue, readExponent, Option.map_some, hlength,
      zero_sub, (by omega : -(e.natAbs : Int) = e)]

end

/-! ## Rounded decimals -/

/-- The decimal with `d` tenths rounds `q`, and its text denotes it. -/
structure RoundsTo (q : Decimal) (negative : Bool) (d : Nat) : Prop where
  /-- The sign is kept, also if nothing else is left. -/
  sign : ∃ c e, q = finite negative c e
  /-- The distance is at most half a tenth. -/
  near : |(finite negative d (-1)).toRat - q.toRat| ≤ 1 / 20
  /-- No multiple of a tenth is nearer. -/
  nearest (k : ℤ) : |(finite negative d (-1)).toRat - q.toRat| ≤ |k / 10 - q.toRat|
  /-- The last digit is even if another multiple is as near. -/
  even : |(finite negative d (-1)).toRat - q.toRat| = 1 / 20 → d % 2 = 0
  /-- The text has exactly one digit behind the point, and it reads back. -/
  written : ∃ text whole digit, (Scalar.decimal (finite negative d (-1))).text? = some text ∧
    text.toList = signText negative ++ whole ++ ['.', digit] ∧ Grammar.IsNatural whole ∧
      Grammar.isDigit digit = true ∧ ofText? text = some (finite negative d (-1))

theorem exists_plain_tenths (negative : Bool) (d : Nat) :
    ∃ whole digit, (finite negative d (-1)).plain.toList = signText negative ++ whole ++ ['.', digit] ∧
      Grammar.IsNatural whole ∧ Grammar.isDigit digit = true := by
  obtain ⟨whole, fraction, hpointed, hwhole, hlength, hfraction, -⟩ := Grammar.exists_pointed d (k := 1) (by decide)
  obtain ⟨digit, rfl⟩ := List.length_eq_one_iff.mp hlength
  refine ⟨whole, digit, ?_, hwhole, hfraction digit (List.mem_singleton_self _)⟩
  rw [plain_of_neg (by decide), List.append_assoc, ← hpointed]
  rfl

theorem abs_div_ten (y : ℚ) : |y / 10| = |y| / 10 := by
  rw [abs_div, abs_of_pos (by norm_num : (0 : ℚ) < 10)]

/-- The distance of an integral number of tenths, which takes over the sign of the decimal. -/
theorem abs_tenths_sub (k : ℤ) : |(k : ℚ) / 10 - (finite negative c e).toRat| =
    |((if negative then -k else k : ℤ) : ℚ) - c * 10 ^ e * 10| / 10 := by
  rw [← abs_div_ten]
  cases negative with
  | false =>
    congr 1
    simp only [toRat, Bool.false_eq_true, if_false]
    ring
  | true =>
    rw [← abs_neg]
    congr 1
    simp only [toRat, if_true, Int.cast_neg]
    ring

/-- Rounding the tenfold number rounds to tenths. -/
theorem IsNearest.roundsTo (negative : Bool) (h : IsNearest (c * 10 ^ e * 10) d) :
    RoundsTo (finite negative c e) negative d := by
  have hdistance : |(finite negative d (-1)).toRat - (finite negative c e).toRat| =
      |(d : ℚ) - c * 10 ^ e * 10| / 10 := by
    rw [abs_toRat_sub, ← abs_div_ten, zpow_neg_one]
    congr 1
    ring
  obtain ⟨whole, digit, htext, hwhole, hdigit⟩ := exists_plain_tenths negative d
  refine ⟨⟨c, e, rfl⟩, ?_, fun k => ?_, fun heq => ?_,
    ⟨_, whole, digit, rfl, htext, hwhole, hdigit, ofText?_plain negative d (by decide)⟩⟩
  · rw [hdistance]
    linarith [h.near]
  · rw [hdistance, abs_tenths_sub]
    exact div_le_div_of_nonneg_right (h.le _) (by norm_num)
  · rw [hdistance] at heq
    exact h.even (by linarith)

end PlcLang.Decimal
