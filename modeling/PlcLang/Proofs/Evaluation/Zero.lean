import PlcLang.Proofs.Evaluation.Arithmetic

/-!
# Zeros with a sign

A result in double precision that is zero loses its sign. A quotient is rounded after that, so if it is
negative and rounds to zero, the sign stays.

* `Decimal.isSigned`, `Decimal.head?_plain`: the sign and how it is written.
* `Decimal.isSigned_of_ofResult`: sums, differences, products and powers.
* `Decimal.isSigned_of_ofQuotient`: quotients.
* `Node.visit_zero`: which zeros have a sign.
-/

namespace PlcLang

namespace Decimal

variable {negative : Bool} {c d : Nat} {e : Int} {q r : Decimal} {x : Float}

/-- The decimal has a minus sign. -/
def isSigned : Decimal → Bool
  | finite negative _ _ | infinite negative => negative
  | nan => false

/-! ## The sign in the text -/

theorem head?_signText_append {ds : List Char} (h : ds.head? ≠ some '-') :
    (signText negative ++ ds).head? = some '-' ↔ negative = true := by
  cases negative with
  | true => simp [signText]
  | false => simpa [signText] using h

open Grammar in
theorem head?_ne_of_isNatural {ds rest : List Char} (h : IsNatural ds) : (ds ++ rest).head? ≠ some '-' := by
  obtain ⟨k, ks, rfl⟩ := List.exists_cons_of_ne_nil h.ne_nil
  have hk := h.isDigit k List.mem_cons_self
  intro hhead
  obtain rfl : k = '-' := by simpa using hhead
  cases hk

theorem head?_pointed (c k : Nat) : (pointed c k).head? ≠ some '-' := by
  by_cases hk : k = 0
  · have hpointed : pointed c 0 = digits c ++ [] := by
      have hpad : 1 - (digits c).length = 0 := Nat.sub_eq_zero_of_le Nat.length_toDigits_pos
      simp [pointed, hpad]
    rw [hk, hpointed]
    exact head?_ne_of_isNatural (Grammar.isNatural_digits c)
  · obtain ⟨whole, fraction, hpointed, hwhole, -⟩ := Grammar.exists_pointed c hk
    rw [hpointed]
    exact head?_ne_of_isNatural hwhole

/-- The text of a decimal begins with a minus exactly if the decimal has a sign. -/
theorem head?_plain (d : Decimal) : d.plain.toList.head? = some '-' ↔ d.isSigned = true := by
  cases d with
  | finite negative c e =>
    unfold plain
    rw [String.toList_ofList]
    refine head?_signText_append ?_
    split
    · exact head?_pointed c _
    · split
      · decide
      · exact head?_ne_of_isNatural (Grammar.isNatural_digits c)
  | infinite negative =>
    unfold plain
    rw [String.toList_ofList]
    exact head?_signText_append (by decide)
  | nan => decide

/-! ## Results in double precision -/

/-- **A zero that is a result in double precision has no sign.** -/
theorem isSigned_of_ofResult (h : ofResult x = .ok r) (hr : r.isZero = true) : r.isSigned = false := by
  unfold ofResult at h
  split at h
  next d hd =>
    cases h
    unfold Double.toDecimal? at hd
    split at hd
    · cases hd
      generalize Double.decimal x = y at hr
      cases y with
      | finite negative c e =>
        have hc : c = 0 := by simpa [unsignedZero, isZero] using hr
        simp [unsignedZero, isSigned, hc]
      | infinite | nan => cases hr
    · cases hd
  next => cases h

/-- A decimal in double precision that is negative is no zero, so it is less than zero. -/
theorem toRat_neg_iff (h : Double.toDecimal? x = some (finite negative c e)) :
    (finite negative c e).toRat < 0 ↔ negative = true := by
  have hresult : ofResult x = .ok (finite negative c e) := by
    unfold ofResult
    rw [h]
  cases negative with
  | false =>
    have hnonneg : (0 : ℚ) ≤ c * 10 ^ e := by positivity
    simpa [toRat] using hnonneg
  | true =>
    have hc : 0 < c := by
      by_contra hzero
      have hunsigned := isSigned_of_ofResult hresult (by simp [isZero]; omega)
      cases hunsigned
    have hpos : (0 : ℚ) < c * 10 ^ e := by positivity
    simpa [toRat] using hpos

/-! ## Quotients -/

/-- A decimal is rounded to no tenths exactly if it is not greater than half a tenth. -/
theorem RoundsTo.eq_zero_iff (h : q.RoundsTo negative d) : d = 0 ↔ |q.toRat| ≤ 1 / 20 := by
  obtain ⟨c, e, rfl⟩ := h.sign
  have hnear := h.near
  have heven := h.even
  rw [abs_toRat_sub, zpow_neg_one] at hnear heven
  rw [abs_toRat]
  have hsize : (0 : ℚ) ≤ c * 10 ^ e := by positivity
  generalize (c : ℚ) * 10 ^ e = y at *
  constructor
  · rintro rfl
    rw [Nat.cast_zero, zero_mul, zero_sub, abs_neg, abs_of_nonneg hsize] at hnear
    exact hnear
  · intro hle
    have hle' := (abs_le.mp hnear).2
    by_contra hd
    have hone : (1 : ℚ) ≤ d := by exact_mod_cast Nat.one_le_iff_ne_zero.mpr hd
    have htenth : (d : ℚ) * 10⁻¹ = d / 10 := by ring
    rw [htenth] at hle' heven
    -- one tenth is as near as none only if half a tenth is rounded, and then none is taken
    have hd' : (d : ℚ) = 1 := by linarith
    have hy : y = 1 / 20 := by linarith
    have heven' := heven (by rw [hd', hy]; norm_num)
    have hd'' : d = 1 := by exact_mod_cast hd'
    omega

/-- **A quotient that is zero has a sign exactly if it was negative** and has been rounded. -/
theorem isSigned_of_ofQuotient (h : ofQuotient x = .ok r) :
    r.isZero = true ∧ r.isSigned = true ↔
      ∃ q, Double.toDecimal? x = some q ∧ -1 / 20 ≤ q.toRat ∧ q.toRat < 0 := by
  obtain ⟨q, hq⟩ : ∃ q, Double.toDecimal? x = some q := by
    cases hx : Double.toDecimal? x with
    | some q => exact ⟨q, rfl⟩
    | none =>
      unfold ofQuotient ofResult at h
      rw [hx] at h
      cases h
  rcases ofQuotient_spec hq with ⟨-, negative, d, hd, hrounds⟩ | ⟨-, herror⟩
  · cases hd.symm.trans h
    have hzero : (finite negative d (-1)).isZero = true ↔ |q.toRat| ≤ 1 / 20 := by
      rw [← hrounds.eq_zero_iff]
      simp [isZero]
    obtain ⟨c, e, rfl⟩ := hrounds.sign
    rw [hzero]
    change _ ∧ negative = true ↔ _
    rw [← toRat_neg_iff hq, abs_le]
    constructor
    · rintro ⟨⟨hlow, -⟩, hneg⟩
      exact ⟨_, hq, by linarith, hneg⟩
    · rintro ⟨q', hq', hlow, hneg⟩
      obtain rfl := Option.some.inj (hq.symm.trans hq')
      exact ⟨⟨by linarith, by linarith⟩, hneg⟩
  · cases herror.symm.trans h

/-! ## Operations -/

/-- What an operation gives is a result in double precision, or a quotient. -/
theorem ofResult_or_ofQuotient {op : Operator} (hop : op.IsArithmetic) {a b : Decimal}
    (h : operate op a b = .ok r) :
    op ≠ .divide ∧ (∃ x, ofResult x = .ok r) ∨
      op = .divide ∧ ofQuotient (Double.ofDecimal a / Double.ofDecimal b) = .ok r := by
  rcases hop with rfl | rfl | rfl | rfl
  · exact .inl ⟨nofun, _, h⟩
  · exact .inl ⟨nofun, _, h⟩
  · exact .inl ⟨nofun, _, h⟩
  · unfold operate at h
    dsimp only at h
    split at h
    · cases h
    · exact .inr ⟨rfl, h⟩

theorem exists_ofResult_of_raised {a : Decimal} {i : Int} (h : raised a i = .ok r) :
    ∃ x, ofResult x = .ok r := by
  unfold raised at h
  dsimp only at h
  split at h
  · cases h
  · split at h
    · split at h <;> cases h
    · exact ⟨_, h⟩

end Decimal

namespace Run

open Walk

variable {depth : Nat} {s s₁ s₂ s' : State Body String} {op : Operator} {l r : Node} {t : Option Ty} {p : Place}
  {a b c : Decimal} {v w : Value}

/-- The operators that compute with a decimal, and the kinds of their right operands. -/
def TakesDecimal (op : Operator) (w : Value) : Prop :=
  op.IsArithmetic ∧ (∃ b, w = .decimal b) ∨ op = .power ∧ ∃ i, w = .integer i

theorem operate_decimals (hop : op.IsArithmetic) :
    operate op (.decimal a) (.decimal b) s =
      (do return Value.decimal (← lift (Decimal.operate op a b)) : Run Value) s := by
  rcases hop with rfl | rfl | rfl | rfl <;> rfl

/-- A decimal that is lifted and returned was there before. -/
theorem return_decimal_eq_ok {x : Except Fault Decimal} :
    (do return Value.decimal (← lift x) : Run Value) s = .ok v s' ↔
      (∃ c, x = .ok c ∧ v = .decimal c) ∧ s' = s := by
  cases x with
  | ok c =>
    change EStateM.Result.ok _ _ = _ ↔ _
    simp [eq_comm]
  | error f =>
    change EStateM.Result.error _ _ = _ ↔ _
    simp

theorem exists_of_operate_decimal (hop : TakesDecimal op w) (h : operate op (.decimal a) w s = .ok v s') :
    ∃ c, v = .decimal c ∧
      (op ≠ .divide ∧ (∃ x, Decimal.ofResult x = .ok c) ∨
        op = .divide ∧ ∃ b, w = .decimal b ∧
          Decimal.ofQuotient (Double.ofDecimal a / Double.ofDecimal b) = .ok c) := by
  rcases hop with ⟨hop, b, rfl⟩ | ⟨rfl, i, rfl⟩
  · rw [operate_decimals hop] at h
    obtain ⟨⟨c, hc, rfl⟩, -⟩ := return_decimal_eq_ok.mp h
    refine ⟨c, rfl, (Decimal.ofResult_or_ofQuotient hop hc).imp_right ?_⟩
    rintro ⟨rfl, hquotient⟩
    exact ⟨rfl, b, rfl, hquotient⟩
  · obtain ⟨⟨c, hc, rfl⟩, -⟩ := return_decimal_eq_ok.mp h
    exact ⟨c, rfl, .inl ⟨nofun, Decimal.exists_ofResult_of_raised hc⟩⟩

theorem visit_decimals_of_operate (hl : visit depth l s = .ok (.decimal a) s₁)
    (hr : visit depth r s₁ = .ok (.decimal b) s₂) (hop : op.IsArithmetic) (hc : Decimal.operate op a b = .ok c) :
    visit (depth + 1) (.binary op l r t p) s = .ok (.decimal c) s₂ := by
  have hnot : op ≠ .and ∧ op ≠ .or := by
    rcases hop with rfl | rfl | rfl | rfl <;> exact ⟨nofun, nofun⟩
  rw [visit_binary hl hr hnot, attached_eq_ok, operate_decimals hop]
  exact return_decimal_eq_ok.mpr ⟨⟨c, hc, rfl⟩, rfl⟩

end Run

namespace Node

open Run

/-- **A zero has a sign only if it is a quotient that was negative and has been rounded.** Whatever the
decimals are, a sum, a difference, a product, a quotient or a power with an integer exponent is a decimal if
there is a result. If that is zero, it has a sign exactly if the operation is a division whose quotient in
double precision lies between minus half a tenth and zero; a minus is written exactly in front of a zero
with a sign. -/
theorem visit_zero {depth : Nat} {op : Operator} {left right : Node} {t : Option Ty} {p : Place}
    {s s₁ s₂ s' : State Body String} {a : Decimal} {v w : Value}
    (hl : visit depth left s = .ok (.decimal a) s₁) (hr : visit depth right s₁ = .ok w s₂)
    (hop : TakesDecimal op w) (h : visit (depth + 1) (.binary op left right t p) s = .ok v s') :
    ∃ r, v = .decimal r ∧
      (r.isZero = true → (r.isSigned = true ↔ op = .divide ∧ ∃ b q, w = .decimal b ∧
        Double.toDecimal? (Double.ofDecimal a / Double.ofDecimal b) = some q ∧
        -1 / 20 ≤ q.toRat ∧ q.toRat < 0)) ∧
      ∃ text, (Scalar.decimal r).text? = some text ∧
        (text.toList.head? = some '-' ↔ r.isSigned = true) := by
  have hnot : op ≠ .and ∧ op ≠ .or := by
    rcases hop with ⟨hop, -⟩ | ⟨rfl, -⟩
    · rcases hop with rfl | rfl | rfl | rfl <;> exact ⟨nofun, nofun⟩
    · exact ⟨nofun, nofun⟩
  rw [visit_binary hl hr hnot] at h
  obtain ⟨r, rfl, hcases⟩ := exists_of_operate_decimal hop (Walk.attached_eq_ok.mp h)
  refine ⟨r, rfl, fun hzero => ?_, _, rfl, Decimal.head?_plain r⟩
  rcases hcases with ⟨hne, x, hx⟩ | ⟨rfl, b, rfl, hquotient⟩
  · simp [Decimal.isSigned_of_ofResult hx hzero, hne]
  · have hsigned := Decimal.isSigned_of_ofQuotient hquotient
    simp only [hzero, true_and] at hsigned
    rw [hsigned]
    simp

/-- A product that is zero without a sign, and a quotient that is zero with one. -/
theorem visit_zero_rounded :
    visit 2 (binary .times (tenths 0) (tenths (-10)) none .unknown) (start {} none) =
        .ok (.decimal (.finite false 0 (-1))) (start {} none) ∧
      (∃ text, (Scalar.decimal (.finite false 0 (-1))).text? = some text ∧ ¬ text.toList.head? = some '-') ∧
      visit 2 (binary .divide (tenths (-1)) (tenths 100) none .unknown) (start {} none) =
        .ok (.decimal (.finite true 0 (-1))) (start {} none) ∧
      ∃ text, (Scalar.decimal (.finite true 0 (-1))).text? = some text ∧ text.toList.head? = some '-' := by
  have hproduct : visit 2 (binary .times (tenths 0) (tenths (-10)) none .unknown) (start {} none) =
      .ok (.decimal (.finite false 0 (-1))) (start {} none) :=
    visit_decimals_of_operate (visit_tenths 0 _) (visit_tenths (-10) _) (.inr (.inr (.inl rfl)))
      (by decide +kernel)
  have hquotient : visit 2 (binary .divide (tenths (-1)) (tenths 100) none .unknown) (start {} none) =
      .ok (.decimal (.finite true 0 (-1))) (start {} none) :=
    visit_decimals_of_operate (visit_tenths (-1) _) (visit_tenths 100 _) (.inr (.inr (.inr rfl)))
      (by decide +kernel)
  obtain ⟨_, ⟨⟩, -, _, hzero, hunwritten⟩ := visit_zero (visit_tenths 0 _) (visit_tenths (-10) _)
    (.inl ⟨.inr (.inr (.inl rfl)), _, rfl⟩) hproduct
  obtain ⟨_, ⟨⟩, -, _, hminus, hwritten⟩ := visit_zero (visit_tenths (-1) _) (visit_tenths 100 _)
    (.inl ⟨.inr (.inr (.inr rfl)), _, rfl⟩) hquotient
  exact ⟨hproduct, ⟨_, hzero, mt hunwritten.mp (by decide)⟩, hquotient, _, hminus, hwritten.mpr rfl⟩

/-- A zero with a sign: minus a hundredth is rounded to tenths. -/
theorem visit_signed_zero :
    visit 2 (binary .divide (tenths (-1)) (tenths 100) none .unknown) (start {} none) =
        .ok (.decimal (.finite true 0 (-1))) (start {} none) ∧
      (Decimal.finite true 0 (-1)).isZero = true ∧ (Scalar.decimal (.finite true 0 (-1))).text? = some "-0.0" := by
  refine ⟨?_, rfl, by decide +kernel⟩
  exact visit_decimals_of_operate (visit_tenths (-1) _) (visit_tenths 100 _) (.inr (.inr (.inr rfl)))
    (by decide +kernel)

end Node

end PlcLang
