import Mathlib.Tactic.Positivity
import Mathlib.Tactic.Ring
import PlcLang.Number.Double

/-!
# The digits of doubles

The decimal that the text of a double denotes has at most seventeen digits, apart from zeros in front of
the point.

* `Double.lt_magnitude`: how large a quotient is.
* `Double.shortest_lt`: the shortest digits.
* `Double.exists_decimal_eq`: the decimal of a double.
-/

namespace PlcLang

/-- A number with at most so many digits. -/
theorem Decimal.length_digits_le_iff {n k : Nat} (hk : 0 < k) : (digits n).length ≤ k ↔ n < 10 ^ k :=
  Nat.length_toDigits_le_iff (by decide) hk

theorem Decimal.divideHalfEven_le (n d : Nat) : divideHalfEven n d ≤ n / d + 1 := by
  unfold divideHalfEven
  dsimp only
  split_ifs <;> omega

namespace Double

/-! ## Magnitudes -/

/-- The magnitude bounds the quotient. -/
theorem lt_magnitude {n d : Nat} (hn : 0 < n) (hd : 0 < d) :
    n * 10 ^ (-magnitude n d).toNat < d * 10 ^ (magnitude n d).toNat := by
  unfold magnitude
  split
  next h =>
    have hlt : n / d < 10 ^ (Decimal.digits (n / d)).length :=
      (Decimal.length_digits_le_iff Nat.length_toDigits_pos).mp (Nat.le_refl _)
    rw [Int.toNat_natCast, Int.toNat_of_nonpos (by omega), Nat.pow_zero, Nat.mul_one]
    rw [Nat.mul_comm d]
    exact (Nat.div_lt_iff_lt_mul hd).mp hlt
  next h =>
    obtain ⟨l, hl⟩ : ∃ l, (Decimal.digits ((d - 1) / n)).length = l + 1 :=
      Nat.exists_eq_succ_of_ne_zero (Nat.ne_of_gt Nat.length_toDigits_pos)
    have hexponent : (-(1 - ((l + 1 : Nat) : Int))).toNat = l := by omega
    rw [hl, hexponent, Int.toNat_of_nonpos (by omega), Nat.pow_zero, Nat.mul_one]
    rcases Nat.eq_zero_or_pos l with rfl | hpos
    · omega
    · have hle : 10 ^ l ≤ (d - 1) / n := by
        rw [← Nat.not_lt, ← Decimal.length_digits_le_iff hpos, hl]
        omega
      have hmul := (Nat.le_div_iff_mul_le hn).mp hle
      rw [Nat.mul_comm] at hmul
      omega

/-- In units of `10 ^ (magnitude - k)` a quotient has at most `k` digits. -/
theorem div_lt_of_magnitude {n s d k : Nat} {e : Int} (hn : 0 < n) (hs : 0 < s) (hd : 0 < d)
    (he : e = magnitude (n * s) d - k) : n * (s * 10 ^ (-e).toNat) / (d * 10 ^ e.toNat) < 10 ^ k := by
  have hmagnitude := lt_magnitude (Nat.mul_pos hn hs) hd
  generalize magnitude (n * s) d = m at he hmagnitude
  have hsum : (-e).toNat + m.toNat = (-m).toNat + (e.toNat + k) := by omega
  rw [Nat.div_lt_iff_lt_mul (by positivity)]
  -- both sides are multiplied with what the signs of the exponents leave out
  refine Nat.lt_of_mul_lt_mul_right (a := 10 ^ (-m).toNat) ?_
  calc
    n * (s * 10 ^ (-e).toNat) * 10 ^ (-m).toNat = n * s * 10 ^ (-m).toNat * 10 ^ (-e).toNat := by ring
    _ < d * 10 ^ m.toNat * 10 ^ (-e).toNat := Nat.mul_lt_mul_of_pos_right hmagnitude (by positivity)
    _ = d * 10 ^ ((-e).toNat + m.toNat) := by ring
    _ = 10 ^ k * (d * 10 ^ e.toNat) * 10 ^ (-m).toNat := by rw [hsum]; ring

/-! ## Digits -/

/-- A power of ten with too many digits is shortened. -/
theorem carried_lt {n d : Nat} (h : d ≤ 10 ^ n) (hn : 0 < n) (k : Int) : (carried n d k).1 < 10 ^ n := by
  unfold carried
  rw [Nat.pow_eq]
  split
  · exact Nat.one_lt_pow (Nat.ne_of_gt hn) (by decide)
  · omega

theorem neighbour?_le {low n high d k m : Nat} {closed : Bool} (h : neighbour? low n high d closed = some m)
    (hk : n / d < k) : m ≤ k := by
  have hnearest := Decimal.divideHalfEven_le n d
  unfold neighbour? nearest at h
  dsimp only at h
  split_ifs at h <;> cases h <;> omega

/-- **The shortest digits of a double are at most seventeen.** -/
theorem shortest_lt {x : Float} (h : mantissa x ≠ 0) : (shortest x).1 < 10 ^ 17 := by
  have hmantissa : 0 < mantissa x := Nat.pos_of_ne_zero h
  unfold shortest
  simp only [Nat.pow_eq]
  split
  next found hfound =>
    obtain ⟨n, hn, hattempt⟩ := List.exists_of_findSome?_eq_some hfound
    obtain ⟨d, hd, rfl⟩ := Option.map_eq_some_iff.mp hattempt
    have hmem := List.mem_range'_1.mp hn
    have hle := neighbour?_le hd (div_lt_of_magnitude (by positivity) (by positivity) (by positivity) rfl)
    refine Nat.lt_of_lt_of_le (carried_lt hle (by omega) _) ?_
    exact Nat.pow_le_pow_right (by decide) (by omega)
  next =>
    refine carried_lt (Nat.le_trans (Decimal.divideHalfEven_le _ _) ?_) (by decide) _
    exact div_lt_of_magnitude (by positivity) (by positivity) (by positivity) rfl

/-- **The decimal of a double** has at most seventeen digits, or else it has at most one behind the point. -/
theorem exists_decimal_eq (x : Float) :
    ∃ negative c e, decimal x = .finite negative c e ∧ (-1 ≤ e ∨ c < 10 ^ 17) := by
  unfold decimal
  split
  next => exact ⟨_, _, _, rfl, .inl (Int.le_refl _)⟩
  next hmantissa =>
    dsimp only
    split
    · exact ⟨_, _, _, rfl, .inl (Int.le_refl _)⟩
    · exact ⟨_, _, _, rfl, .inr (shortest_lt hmantissa)⟩

theorem exists_of_toDecimal? {x : Float} {q : Decimal} (h : toDecimal? x = some q) :
    ∃ negative c e, q = .finite negative c e ∧ (-1 ≤ e ∨ c < 10 ^ 17) := by
  obtain ⟨negative, c, e, hx, hfits⟩ := exists_decimal_eq x
  unfold toDecimal? at h
  rw [hx] at h
  split at h <;> cases h
  exact ⟨_, c, e, rfl, hfits⟩

end Double

end PlcLang
