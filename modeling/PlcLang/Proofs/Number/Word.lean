import Mathlib.Data.Int.ModEq
import Mathlib.Data.Rat.Floor
import PlcLang.Number.Word

/-!
# Arithmetic in the 32-bit range

The reduced number is the one in the range that is congruent to the number. Powers are exact modulo
`2 ^ 32`, and quotients are the exact ones without their fractions, reduced.

* `Word.wrap_eq_iff`: the reduced number.
* `Word.power_eq`: powers.
* `Word.truncated`, `Word.quotient_eq`: quotients.
* `Word.inRange_tdiv_iff`: the quotients that need not be reduced.
-/

namespace PlcLang.Word

variable {i j : Int}

theorem wrap_modEq (i : Int) : wrap i ≡ i [ZMOD modulus] := Int.bmod_emod

theorem wrap_congr (h : i ≡ j [ZMOD modulus]) : wrap i = wrap j := by
  rw [wrap, wrap, Int.bmod_def, Int.bmod_def, h]

/-- **The reduced number** is the only one in the range that is congruent to the number. -/
theorem wrap_eq_iff : wrap i = j ↔ InRange j ∧ j ≡ i [ZMOD modulus] := by
  constructor
  · rintro rfl
    exact ⟨wrap_inRange i, wrap_modEq i⟩
  · rintro ⟨hj, hcongr⟩
    rw [← wrap_of_inRange hj, wrap_congr hcongr]

theorem wrap_eq_self_iff : wrap i = i ↔ InRange i := by
  rw [wrap_eq_iff]
  exact and_iff_left rfl

/-- Powers may be computed with reduced numbers. -/
theorem power_eq (b : Int) (e : Nat) : power b e = wrap (b ^ e) := by
  have hbase : ((b % modulus).toNat : Int) = b % modulus :=
    Int.toNat_of_nonneg (Int.emod_nonneg b (by decide))
  refine wrap_congr ?_
  rw [powMod_eq, Nat.pow_eq, Int.natCast_emod, Int.natCast_pow, hbase]
  exact (Int.mod_modEq _ _).trans ((Int.mod_modEq b _).pow e)

/-! ## Quotients -/

/-- The number without its fraction. -/
def truncated (x : ℚ) : Int := if 0 ≤ x then ⌊x⌋ else ⌈x⌉

theorem truncated_div_natCast (a : Int) {n : Nat} (hn : 0 < n) : truncated (a / n : ℚ) = a.tdiv n := by
  have hn' : (0 : ℚ) < n := Nat.cast_pos.mpr hn
  unfold truncated
  split
  next h =>
    have ha : 0 ≤ a := by simpa using (le_div_iff₀ hn').mp h
    rw [Rat.floor_intCast_div_natCast, Int.tdiv_eq_ediv_of_nonneg ha]
  next h =>
    have ha : a < 0 := by simpa using (div_lt_iff₀ hn').mp (not_le.mp h)
    have hneg : (a / n : ℚ) = -((-a : Int) / n) := by rw [Int.cast_neg, neg_div, neg_neg]
    rw [hneg, Int.ceil_neg, Rat.floor_intCast_div_natCast, ← Int.tdiv_eq_ediv_of_nonneg (by omega), Int.neg_tdiv,
      neg_neg]

/-- The quotient toward zero. -/
theorem truncated_div (a : Int) {b : Int} (hb : b ≠ 0) : truncated (a / b : ℚ) = a.tdiv b := by
  rcases lt_or_gt_of_ne hb with hneg | hpos
  · obtain ⟨n, hn⟩ := Int.eq_ofNat_of_zero_le (neg_nonneg.mpr hneg.le)
    have hquotient : (a / b : ℚ) = (-a : Int) / n := by
      rw [← Int.cast_natCast n, ← hn, Int.cast_neg, Int.cast_neg, neg_div_neg_eq]
    rw [hquotient, truncated_div_natCast _ (by omega), ← hn, Int.neg_tdiv_neg]
  · obtain ⟨n, rfl⟩ := Int.eq_ofNat_of_zero_le hpos.le
    exact truncated_div_natCast a (by omega)

/-- The quotient of two numbers in the range lies in the range, with one exception. -/
theorem inRange_tdiv_iff {a b : Int} (ha : InRange a) (hb : b ≠ 0) :
    InRange (a.tdiv b) ↔ ¬ (a = least ∧ b = -1) := by
  by_cases hone : b = -1
  · subst hone
    rw [Int.tdiv_neg, Int.tdiv_one]
    simp only [InRange, least, greatest, and_true] at ha ⊢
    omega
  · refine iff_of_true ?_ fun h => hone h.2
    by_cases hunit : b = 1
    · rwa [hunit, Int.tdiv_one]
    · have hhalf : (a.tdiv b).natAbs ≤ a.natAbs / 2 := by
        rw [Int.natAbs_tdiv]
        exact Nat.div_le_div_left (by omega) (by decide)
      simp only [InRange, least, greatest] at ha ⊢
      omega

theorem quotient_eq (a : Int) {b : Int} (hb : b ≠ 0) : quotient a b = wrap (truncated (a / b : ℚ)) := by
  rw [truncated_div a hb, quotient]

end PlcLang.Word
