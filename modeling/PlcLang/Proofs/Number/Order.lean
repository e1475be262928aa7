import Mathlib.Order.WithBot
import PlcLang.Proofs.Number.Rounding

/-!
# The order of decimals

Decimals are compared by their signs, the places of their first digits and their digits. This is how the
numbers that they denote compare, however these are written.

* `Decimal.size_mem`: a size between two powers of ten.
* `Decimal.compareSizes_eq`: how sizes compare.
* `Decimal.extended`: the number that a decimal denotes, or an infinity.
* `Decimal.compare?_eq`, `Decimal.compare?_eq_some_eq_iff`: how decimals compare.
-/

namespace PlcLang.Decimal

variable {s t : Bool} {c d k : Nat} {e f : Int} {a b : Decimal}

/-! ## Comparisons along maps -/

section

variable {α γ : Type} [LinearOrder α] [LinearOrder γ] {g : α → γ}

theorem compare_of_strictMono (hg : StrictMono g) (x y : α) : compare (g x) (g y) = compare x y := by
  rw [← cmp_eq_compare, ← cmp_eq_compare, hg.cmp_map_eq]

theorem compare_of_strictAnti (hg : StrictAnti g) (x y : α) : compare (g x) (g y) = compare y x := by
  rw [← cmp_eq_compare, ← cmp_eq_compare, hg.cmp_map_eq]

end

theorem compare_mul_right {p : ℚ} (hp : 0 < p) (x y : ℚ) : compare (x * p) (y * p) = compare x y :=
  compare_of_strictMono (strictMono_mul_right_of_pos hp) x y

/-! ## Sizes -/

/-- A positive number lies between the powers of ten at its first digit. -/
theorem size_mem (hc : 0 < c) (e : Int) :
    (10 : ℚ) ^ (leading c e - 1) ≤ c * 10 ^ e ∧ (c : ℚ) * 10 ^ e < 10 ^ leading c e := by
  have hpos : 0 < (digits c).length := Nat.length_toDigits_pos
  have hupper : c < 10 ^ (digits c).length := (length_digits_le_iff hpos).mp le_rfl
  have hlower : 10 ^ ((digits c).length - 1) ≤ c := by
    by_cases hone : (digits c).length = 1
    · rw [hone]
      exact hc
    · exact not_lt.mp fun hlt => by
        have := (length_digits_le_iff (by omega)).mpr hlt
        omega
  have he : (0 : ℚ) < 10 ^ e := by positivity
  unfold leading
  constructor
  · rw [show e + ((digits c).length : Int) - 1 = ((digits c).length - 1 : Nat) + e by omega,
      zpow_add₀ (by norm_num), zpow_natCast]
    exact mul_le_mul_of_nonneg_right (by exact_mod_cast hlower) he.le
  · rw [add_comm e, zpow_add₀ (by norm_num), zpow_natCast]
    exact mul_lt_mul_of_pos_right (by exact_mod_cast hupper) he

/-- The number whose first digit is farther to the right is smaller. -/
theorem size_lt (hc : 0 < c) (hd : 0 < d) (h : leading c e < leading d f) :
    (c : ℚ) * 10 ^ e < d * 10 ^ f :=
  calc (c : ℚ) * 10 ^ e < 10 ^ leading c e := (size_mem hc e).2
    _ ≤ 10 ^ (leading d f - 1) := zpow_le_zpow_right₀ (by norm_num) (by omega)
    _ ≤ d * 10 ^ f := (size_mem hd f).1

/-- A number at a smaller exponent. -/
theorem size_shifted (h : f ≤ e) : ((c * Nat.pow 10 (e - f).toNat : Nat) : ℚ) * 10 ^ f = c * 10 ^ e := by
  rw [Nat.pow_eq, Nat.cast_mul, Nat.cast_pow, Nat.cast_ofNat, mul_assoc, ← zpow_natCast,
    ← zpow_add₀ (by norm_num), show ((e - f).toNat : Int) + f = e by omega]

/-- **Sizes compare as the numbers they denote.** -/
theorem compareSizes_eq (hc : 0 < c) (hd : 0 < d) (e f : Int) :
    compareSizes c e d f = compare ((c : ℚ) * 10 ^ e) (d * 10 ^ f) := by
  unfold compareSizes
  rcases lt_trichotomy (leading c e) (leading d f) with hlt | heq | hgt
  · rw [compare_lt_iff_lt.mpr hlt, compare_lt_iff_lt.mpr (size_lt hc hd hlt)]
    rfl
  · rw [compare_eq_iff_eq.mpr heq]
    change compare _ _ = _
    -- both coefficients are brought to the smaller exponent
    rw [← size_shifted (min_le_left e f), ← size_shifted (c := d) (min_le_right e f),
      compare_mul_right (by positivity), compare_of_strictMono Nat.strictMono_cast,
      show (e - min e f).toNat = (e - f).toNat by omega, show (f - min e f).toNat = (f - e).toNat by omega]
  · rw [compare_gt_iff_gt.mpr hgt, compare_gt_iff_gt.mpr (size_lt hd hc hgt)]
    rfl

/-! ## Signs -/

theorem toRat_eq : (finite s c e).toRat = signed s c * 10 ^ e := by
  cases s <;> simp [toRat, signed]

/-- Integers on both sides of zero compare as their multiples do. -/
theorem compare_multiples {x y : ℤ} {p q : ℚ} (hp : 0 < p) (hq : 0 < q)
    (h : x ≤ 0 ∧ 0 ≤ y ∨ 0 ≤ x ∧ y ≤ 0) : compare x y = compare ((x : ℚ) * p) (y * q) := by
  have hlt {x y : ℤ} {p q : ℚ} (hp : 0 < p) (hq : 0 < q) (hx : x ≤ 0) (hy : 0 ≤ y) (hxy : x < y) :
      (x : ℚ) * p < y * q := by
    have hx' : (x : ℚ) * p ≤ 0 := mul_nonpos_of_nonpos_of_nonneg (by exact_mod_cast hx) hp.le
    have hy' : 0 ≤ (y : ℚ) * q := mul_nonneg (by exact_mod_cast hy) hq.le
    rcases hx.lt_or_eq with hneg | rfl
    · exact (mul_neg_of_neg_of_pos (by exact_mod_cast hneg) hp).trans_le hy'
    · exact hx'.trans_lt (mul_pos (by exact_mod_cast hxy) hq)
  rcases lt_trichotomy x y with hxy | rfl | hxy
  · rw [compare_lt_iff_lt.mpr hxy, compare_lt_iff_lt.mpr (hlt hp hq (by omega) (by omega) hxy)]
  · obtain rfl : x = 0 := by omega
    simp
  · rw [compare_gt_iff_gt.mpr hxy, compare_gt_iff_gt.mpr (hlt hq hp (by omega) (by omega) hxy)]

/-- Finite decimals compare as the numbers they denote. -/
theorem compare?_finite : (finite s c e).compare? (finite t d f) =
    some (compare (finite s c e).toRat (finite t d f).toRat) := by
  rw [compare?, toRat_eq, toRat_eq]
  congr 1
  split
  next h =>
    refine compare_multiples (by positivity) (by positivity) ?_
    cases s <;> cases t <;> simp [signed] at h ⊢ <;> omega
  next h =>
    obtain ⟨hc, hd, rfl⟩ : 0 < c ∧ 0 < d ∧ s = t := by
      push Not at h
      exact ⟨Nat.pos_of_ne_zero h.1, Nat.pos_of_ne_zero h.2.1, h.2.2⟩
    cases s with
    | false => simpa [signed] using compareSizes_eq hc hd e f
    | true =>
      rw [if_pos rfl, compareSizes_eq hd hc]
      simpa [signed] using (compare_of_strictAnti (fun _ _ => neg_lt_neg) ((c : ℚ) * 10 ^ e) (d * 10 ^ f)).symm

/-! ## Infinities -/

/-- The number that a decimal denotes, between the infinities; zero if it denotes none. -/
def extended : Decimal → WithBot (WithTop ℚ)
  | infinite true => ⊥
  | infinite false => ⊤
  | a => (a.toRat : WithTop ℚ)

/-- **Decimals compare as the numbers they denote**, below or above which the infinities lie. -/
theorem compare?_eq (ha : a ≠ nan) (hb : b ≠ nan) : a.compare? b = some (compare a.extended b.extended) := by
  have hcoe (x y : ℚ) : compare ((x : WithTop ℚ) : WithBot (WithTop ℚ)) (y : WithTop ℚ) = compare x y := by
    rw [compare_of_strictMono WithBot.coe_strictMono, compare_of_strictMono WithTop.coe_strictMono]
  have hlow (x : ℚ) : (⊥ : WithBot (WithTop ℚ)) < (x : WithTop ℚ) := WithBot.bot_lt_coe _
  have hhigh (x : ℚ) : ((x : WithTop ℚ) : WithBot (WithTop ℚ)) < ⊤ := WithBot.coe_lt_coe.mpr (WithTop.coe_lt_top x)
  match a, b, ha, hb with
  | finite s c e, finite t d f, _, _ =>
    rw [compare?_finite]
    exact congrArg some (hcoe _ _).symm
  | infinite true, finite .., _, _ => exact congrArg some (compare_lt_iff_lt.mpr (hlow _)).symm
  | infinite false, finite .., _, _ => exact congrArg some (compare_gt_iff_gt.mpr (hhigh _)).symm
  | finite .., infinite true, _, _ => exact congrArg some (compare_gt_iff_gt.mpr (hlow _)).symm
  | finite .., infinite false, _, _ => exact congrArg some (compare_lt_iff_lt.mpr (hhigh _)).symm
  | infinite true, infinite true, _, _ | infinite false, infinite false, _, _ =>
    exact congrArg some (compare_eq_iff_eq.mpr rfl).symm
  | infinite true, infinite false, _, _ => exact congrArg some (compare_lt_iff_lt.mpr bot_lt_top).symm
  | infinite false, infinite true, _, _ => exact congrArg some (compare_gt_iff_gt.mpr bot_lt_top).symm

theorem compare?_eq_none (h : a = nan ∨ b = nan) : a.compare? b = none := by
  rcases h with rfl | rfl
  · cases b <;> rfl
  · cases a <;> rfl

/-- Decimals compare as equal if they denote the same number. -/
theorem compare?_eq_some_eq_iff : a.compare? b = some .eq ↔ a ≠ nan ∧ b ≠ nan ∧ a.extended = b.extended := by
  by_cases h : a = nan ∨ b = nan
  · rw [compare?_eq_none h]
    exact ⟨nofun, fun ⟨ha, hb, _⟩ => (h.elim ha hb).elim⟩
  · obtain ⟨ha, hb⟩ := not_or.mp h
    rw [compare?_eq ha hb, Option.some.injEq, compare_eq_iff_eq]
    exact ⟨fun heq => ⟨ha, hb, heq⟩, fun heq => heq.2.2⟩

end PlcLang.Decimal
