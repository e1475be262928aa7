import PlcLang.Evaluation.Visit
import PlcLang.Proofs.Evaluation.Numbers
import PlcLang.Proofs.Number.Rounding
import PlcLang.Proofs.Number.Word

/-!
# Arithmetic

Sums, differences, products and powers of integers are exact modulo `2 ^ 32`, however often an
intermediate result was reduced. Quotients of decimals are rounded to the nearest tenth.

* `Node.Denotes`: the exact value of an expression of integers.
* `Run.Gives`, `Run.gives_of_denotes`: what its evaluation gives.
* `Node.visit_integers`: the result for integers.
* `Decimal.ofQuotient_spec`: quotients of decimals.
* `Node.visit_decimals`: the result for decimals.
-/

namespace PlcLang

/-! ## Expressions -/

namespace Node

/-- The exact value of an expression with sums, differences, products and powers of integers. -/
inductive Denotes : Node → Int → Prop
  | literal {i t p} : Denotes (.literal (.integer i) t p) i
  | group {e t p v} : Denotes e v → Denotes (.group e t p) v
  | plus {l r t p v w} : Denotes l v → Denotes r w → Denotes (.binary .plus l r t p) (v + w)
  | minus {l r t p v w} : Denotes l v → Denotes r w → Denotes (.binary .minus l r t p) (v - w)
  | times {l r t p v w} : Denotes l v → Denotes r w → Denotes (.binary .times l r t p) (v * w)
  | power {l t p t' p' v} {k : Nat} : Denotes l v →
      Denotes (.binary .power l (.literal (.integer k) t' p') t p) (v ^ k)

/-- The expression is an operation, perhaps in groups: there is an operator at all. -/
def operates : Node → Bool
  | binary .. => true
  | group e _ _ => e.operates
  | _ => false

end Node

namespace Run

open Walk

variable {depth : Nat} {s s₁ s₂ : State Body String} {op : Operator} {l r : Node} {t : Option Ty} {p : Place}
  {i j k v : Int}

/-! ### Operations -/

theorem operate_integers (hop : op.IsArithmetic) (h : Word.operate op i j = .ok k) :
    operate op (.integer i) (.integer j) s = .ok (.integer k) s := by
  have hlift : (do return Value.integer (← lift (Word.operate op i j)) : Run Value) s = .ok (.integer k) s := by
    rw [h]
    rfl
  rcases hop with rfl | rfl | rfl | rfl <;> exact hlift

theorem operate_power {e : Nat} :
    operate .power (.integer i) (.integer e) s = .ok (.integer (Word.wrap (i ^ e))) s := by
  rw [← Word.power_eq]
  rfl

/-- Both operands are evaluated, and then the operator is applied. -/
theorem visit_binary {a b : Value} (hl : visit depth l s = .ok a s₁) (hr : visit depth r s₁ = .ok b s₂)
    (hop : op ≠ .and ∧ op ≠ .or) :
    visit (depth + 1) (.binary op l r t p) s = attached (.binary op l r t p) (operate op a b) s₂ := by
  have hoperation : operation (visit depth) op l r s = operate op a b s₂ := by
    refine (bind_of_eq_ok hl).trans ?_
    cases op with
    | and => exact (hop.1 rfl).elim
    | or => exact (hop.2 rfl).elim
    | _ => exact bind_of_eq_ok hr
  change attached (.binary op l r t p) (operation (visit depth) op l r) s = _
  unfold attached
  rw [hoperation]

theorem visit_divide_integers (hl : visit depth l s = .ok (.integer i) s₁)
    (hr : visit depth r s₁ = .ok (.integer j) s₂) (hj : j ≠ 0) :
    visit (depth + 1) (.binary .divide l r t p) s = .ok (.integer (Word.quotient i j)) s₂ := by
  have hop : Operator.divide ≠ .and ∧ Operator.divide ≠ .or := ⟨nofun, nofun⟩
  have hoperate : Word.operate .divide i j = .ok (Word.quotient i j) := if_neg hj
  rw [visit_binary hl hr hop, attached_eq_ok]
  exact operate_integers (.inr (.inr (.inr rfl))) hoperate

/-! ### Expressions -/

/-- Wherever the node is evaluated, in a depth that is not less than its height, it gives the integer and
leaves the state alone. -/
def Gives (n : Node) (i : Int) : Prop :=
  ∀ depth s, n.height ≤ depth → visit depth n s = .ok (.integer i) s

theorem Gives.literal : Gives (.literal (.integer i) t p) i := by
  rintro (_ | depth) s hdepth
  · cases hdepth
  · rfl

theorem Gives.group (h : Gives l i) : Gives (.group l t p) i := by
  rintro (_ | depth) s hdepth <;> simp only [Node.height] at hdepth
  · omega
  · exact attached_eq_ok.mpr (h depth s (by omega))

theorem Gives.binary (hl : Gives l i) (hr : Gives r j)
    (h : ∀ s, operate op (.integer i) (.integer j) s = .ok (.integer k) s) (hop : op ≠ .and ∧ op ≠ .or) :
    Gives (.binary op l r t p) k := by
  rintro (_ | depth) s hdepth <;> simp only [Node.height] at hdepth
  · omega
  · exact (visit_binary (hl depth s (by omega)) (hr depth s (by omega)) hop).trans (attached_eq_ok.mpr (h s))

/-- An operation that reduces a number which is congruent to the exact value. -/
theorem exists_gives_binary (hl : Gives l i) (hr : Gives r j)
    (h : ∀ s, operate op (.integer i) (.integer j) s = .ok (.integer (Word.wrap k)) s)
    (hop : op ≠ .and ∧ op ≠ .or) (hk : k ≡ v [ZMOD Word.modulus]) :
    ∃ m, Gives (.binary op l r t p) m ∧ m ≡ v [ZMOD Word.modulus] ∧
      ((Node.binary op l r t p).operates = true → m = Word.wrap v) :=
  ⟨_, hl.binary hr h hop, (Word.wrap_modEq k).trans hk, fun _ => Word.wrap_congr hk⟩

/-- **An expression is evaluated to a number that is congruent to its exact value**, which is reduced if
there is an operator. -/
theorem gives_of_denotes {n : Node} (h : n.Denotes v) :
    ∃ i, Gives n i ∧ i ≡ v [ZMOD Word.modulus] ∧ (n.operates = true → i = Word.wrap v) := by
  induction h with
  | literal => exact ⟨_, .literal, rfl, nofun⟩
  | group _ ih =>
    obtain ⟨i, hgives, hcongr, hwrap⟩ := ih
    exact ⟨i, hgives.group, hcongr, hwrap⟩
  | plus _ _ ihl ihr =>
    obtain ⟨i, hi, hv, -⟩ := ihl
    obtain ⟨j, hj, hw, -⟩ := ihr
    exact exists_gives_binary hi hj (fun _ => operate_integers (.inl rfl) rfl) ⟨nofun, nofun⟩ (hv.add hw)
  | minus _ _ ihl ihr =>
    obtain ⟨i, hi, hv, -⟩ := ihl
    obtain ⟨j, hj, hw, -⟩ := ihr
    exact exists_gives_binary hi hj (fun _ => operate_integers (.inr (.inl rfl)) rfl) ⟨nofun, nofun⟩ (hv.sub hw)
  | times _ _ ihl ihr =>
    obtain ⟨i, hi, hv, -⟩ := ihl
    obtain ⟨j, hj, hw, -⟩ := ihr
    exact exists_gives_binary hi hj (fun _ => operate_integers (.inr (.inr (.inl rfl))) rfl) ⟨nofun, nofun⟩
      (hv.mul hw)
  | @power _ _ _ _ _ _ e _ ih =>
    obtain ⟨i, hi, hv, -⟩ := ih
    exact exists_gives_binary hi .literal (fun _ => operate_power) ⟨nofun, nofun⟩ (hv.pow e)

end Run

namespace Node

open Run

/-- **Integer arithmetic is exact modulo `2 ^ 32`.** An expression of integers, sums, differences, products,
powers with a fixed exponent and groups, with at least one operator, is evaluated to the number between
`- 2 ^ 31` and `2 ^ 31 - 1` that is congruent to its exact value, and to no other; nothing else happens. A
quotient is the exact quotient without its fraction, reduced in the same way; if both operands lie in the
range, so does that, unless `- 2 ^ 31` is divided by `- 1`. -/
theorem visit_integers :
    (∀ n v, n.Denotes v → n.operates = true → ∃ i,
      (∀ depth s, n.height ≤ depth → visit depth n s = .ok (.integer i) s) ∧ i = Word.wrap v ∧
        ∀ j, j = i ↔ (-2 ^ 31 ≤ j ∧ j ≤ 2 ^ 31 - 1) ∧ j ≡ v [ZMOD 2 ^ 32]) ∧
    ∀ a b : Int, b ≠ 0 →
      (∀ depth left right t p s s₁ s₂, visit depth left s = .ok (.integer a) s₁ →
        visit depth right s₁ = .ok (.integer b) s₂ →
        visit (depth + 1) (.binary .divide left right t p) s =
          .ok (.integer (Word.wrap (Word.truncated (a / b : ℚ)))) s₂) ∧
      ((-2 ^ 31 ≤ a ∧ a ≤ 2 ^ 31 - 1) → (-2 ^ 31 ≤ b ∧ b ≤ 2 ^ 31 - 1) →
        (Word.wrap (Word.truncated (a / b : ℚ)) ≠ Word.truncated (a / b : ℚ) ↔ a = -2 ^ 31 ∧ b = -1)) := by
  refine ⟨fun n v hv hn => ?_, fun a b hb => ⟨?_, fun ha _ => ?_⟩⟩
  · obtain ⟨i, hgives, -, hi⟩ := gives_of_denotes hv
    refine ⟨i, hgives, hi hn, fun j => ?_⟩
    rw [eq_comm, hi hn, Word.wrap_eq_iff]
    rfl
  · intro depth left right t p s s₁ s₂ hl hr
    rw [← Word.quotient_eq a hb]
    exact visit_divide_integers hl hr hb
  · rw [Ne, Word.wrap_eq_self_iff, Word.truncated_div a hb, Word.inRange_tdiv_iff ha hb, not_not]
    rfl

/-- An integer literal. -/
def number (i : Int) : Node := literal (.integer i) none .unknown

/-- `(65536 + 1) * 4294967297 - 3 ^ 41`, with numbers that do not fit into 32 bits. -/
def wrapping : Node :=
  binary .minus (binary .times (group (binary .plus (number 65536) (number 1) none .unknown) none .unknown)
    (number 4294967297) none .unknown) (binary .power (number 3) (number 41) none .unknown) none .unknown

theorem visit_integers_wrapping :
    wrapping.Denotes ((65536 + 1) * 4294967297 - 3 ^ 41) ∧
      (∀ depth s, wrapping.height ≤ depth → visit depth wrapping s = .ok (.integer (-2069805154)) s) ∧
      visit 2 (binary .divide (number (-2147483648)) (number (-1)) none .unknown) (start {} none) =
        .ok (.integer (Word.wrap (Word.truncated ((-2147483648 : Int) / (-1 : Int) : ℚ)))) (start {} none) ∧
      Word.wrap (Word.truncated ((-2147483648 : Int) / (-1 : Int) : ℚ)) ≠
        Word.truncated ((-2147483648 : Int) / (-1 : Int) : ℚ) := by
  have hdenotes : wrapping.Denotes ((65536 + 1) * 4294967297 - 3 ^ 41) :=
    .minus (.times (.group (.plus .literal .literal)) .literal) (.power .literal)
  obtain ⟨i, hgives, hi, -⟩ := visit_integers.1 wrapping _ hdenotes rfl
  obtain ⟨hvisit, hexception⟩ := visit_integers.2 (-2147483648) (-1) (by decide)
  refine ⟨hdenotes, fun depth s hdepth => ?_, hvisit 1 _ _ none .unknown _ _ _ rfl rfl, ?_⟩
  · rw [hgives depth s hdepth, hi]
    rfl
  · exact (hexception (by decide) (by decide)).mpr (by decide)

end Node

/-! ## Quotients of decimals -/

namespace Decimal

/-- **A quotient is rounded to tenths** unless it is too large. -/
theorem ofQuotient_spec {x : Float} {q : Decimal} (hq : Double.toDecimal? x = some q) :
    (|q.toRat| < 10 ^ 27 ∧ ∃ negative d, ofQuotient x = .ok (finite negative d (-1)) ∧ q.RoundsTo negative d) ∨
      ((10 : ℚ) ^ 27 ≤ |q.toRat| ∧ ofQuotient x = .error (.resultRange x)) := by
  have hresult : ofResult x = .ok q := by
    unfold ofResult
    rw [hq]
  obtain ⟨negative, c, e, rfl, hfits⟩ := Double.exists_of_toDecimal? hq
  rw [ofQuotient_eq hresult, abs_toRat, precision]
  rcases quantize?_tenths negative hfits with ⟨hsize, d, hd, hnearest⟩ | ⟨hsize, hnone⟩
  · rw [hd]
    exact .inl ⟨hsize, negative, d, rfl, hnearest.roundsTo negative⟩
  · rw [hnone]
    exact .inr ⟨hsize, rfl⟩

end Decimal

namespace Run

open Walk

variable {depth : Nat} {s s₁ s₂ : State Body String} {l r : Node} {t : Option Ty} {p : Place} {a b : Decimal}

theorem visit_divide_decimals (hl : visit depth l s = .ok (.decimal a) s₁)
    (hr : visit depth r s₁ = .ok (.decimal b) s₂) (hb : (Double.ofDecimal b == 0) = false) :
    visit (depth + 1) (.binary .divide l r t p) s = attached (.binary .divide l r t p)
      (do return .decimal (← lift (Decimal.ofQuotient (Double.ofDecimal a / Double.ofDecimal b)))) s₂ := by
  have hop : Operator.divide ≠ .and ∧ Operator.divide ≠ .or := ⟨nofun, nofun⟩
  have hoperate : Decimal.operate .divide a b = Decimal.ofQuotient (Double.ofDecimal a / Double.ofDecimal b) :=
    if_neg (by rw [hb]; decide)
  rw [visit_binary hl hr hop, ← hoperate]
  rfl

end Run

namespace Node

open Run

/-- **Division of decimals rounds correctly, and fails exactly if the quotient is out of range.** Let `q` be
the decimal of the quotient of the doubles. There is a result if and only if `q` lies below `10 ^ 27`; it has
one fractional digit and is the nearest such decimal, the even one of two, with the sign of `q`, and its text
denotes it. Otherwise the range is exceeded, and nothing else happens. -/
theorem visit_decimals {depth : Nat} {left right : Node} {t : Option Ty} {p : Place}
    {s s₁ s₂ : State Body String} {a b q : Decimal} (hl : visit depth left s = .ok (.decimal a) s₁)
    (hr : visit depth right s₁ = .ok (.decimal b) s₂) (hb : (Double.ofDecimal b == 0) = false)
    (hq : Double.toDecimal? (Double.ofDecimal a / Double.ofDecimal b) = some q) :
    ((∃ v s', visit (depth + 1) (.binary .divide left right t p) s = .ok v s') ↔ |q.toRat| < 10 ^ 27) ∧
      (|q.toRat| < 10 ^ 27 → ∃ negative d, q.RoundsTo negative d ∧
        visit (depth + 1) (.binary .divide left right t p) s = .ok (.decimal (.finite negative d (-1))) s₂) ∧
      (10 ^ 27 ≤ |q.toRat| → ∃ e, e.fault = .resultRange (Double.ofDecimal a / Double.ofDecimal b) ∧
        e.fault.category = .range ∧
        visit (depth + 1) (.binary .divide left right t p) s = .error (.fault e) s₂) := by
  rw [visit_divide_decimals hl hr hb]
  rcases Decimal.ofQuotient_spec hq with ⟨hsize, negative, d, hok, hrounds⟩ | ⟨hsize, herror⟩
  · rw [hok]
    exact ⟨⟨fun _ => hsize, fun _ => ⟨_, _, rfl⟩⟩, fun _ => ⟨negative, d, hrounds, rfl⟩,
      fun hle => absurd hsize (not_lt.mpr hle)⟩
  · rw [herror]
    refine ⟨⟨fun ⟨v, s', h⟩ => (nomatch h), fun hlt => absurd hlt (not_lt.mpr hsize)⟩,
      fun hlt => absurd hlt (not_lt.mpr hsize), fun _ => ⟨_, ?_, ?_, rfl⟩⟩
    · exact Located.fault_attach _ _
    · rw [Located.fault_attach]
      rfl

/-- A decimal literal with one fractional digit. -/
def tenths (d : Int) : Node := literal (.decimal (.finite (d < 0) d.natAbs (-1))) none .unknown

theorem visit_tenths (d : Int) (s : State Body String) :
    visit 1 (tenths d) s = .ok (.decimal (.finite (d < 0) d.natAbs (-1))) s := rfl

/-- A quotient halfway between two tenths, and one that is too large. -/
theorem visit_decimals_quarter :
    (∃ negative d, (Decimal.finite true 25 (-2)).RoundsTo negative d ∧
      visit 2 (binary .divide (tenths (-10)) (tenths 40) none .unknown) (start {} none) =
        .ok (.decimal (.finite negative d (-1))) (start {} none)) ∧
    ∃ e, e.fault.category = .range ∧
      visit 2 (binary .divide (tenths (10 ^ 28)) (tenths 10) none .unknown) (start {} none) =
        .error (.fault e) (start {} none) := by
  have hquarter := visit_decimals (t := none) (p := .unknown) (q := .finite true 25 (-2))
    (visit_tenths (-10) (start {} none)) (visit_tenths 40 _) (by decide +kernel) (by decide +kernel)
  have hlarge := visit_decimals (t := none) (p := .unknown) (q := .finite false 1 27)
    (visit_tenths (10 ^ 28) (start {} none)) (visit_tenths 10 _) (by decide +kernel) (by decide +kernel)
  rw [Decimal.abs_toRat] at hquarter hlarge
  obtain ⟨e, -, hcategory, hvisit⟩ := hlarge.2.2 (by norm_num)
  exact ⟨hquarter.2.1 (by norm_num), e, hcategory, hvisit⟩

end Node

end PlcLang
