import PlcLang.Number.Arithmetic
import PlcLang.Proofs.Evaluation.Faults
import PlcLang.Proofs.Number.Shortest
import PlcLang.Proofs.Texts

/-!
# Numbers that are computed

Integers are reduced to 32 bits and decimals are finite, or the computation is refused because a
number is too large or too small.

* `Scalar.IsProper`: numbers that a program may have.
* `Scalar.IsProper.not_isOverlong`: they can be written.
* `Word.sane_operate`, `Decimal.sane_operate`, …: one statement for each computation.
-/

namespace PlcLang

/-- The decimal is a number. -/
def Decimal.IsFinite : Decimal → Prop
  | finite .. => True
  | _ => False

/-- The scalar is one that a program may have: a number that is neither too large nor infinite, or no
number. -/
def Scalar.IsProper : Scalar → Prop
  | integer i => Word.InRange i
  | decimal d => d.IsFinite
  | double _ => False
  | _ => True

/-! ## Texts -/

/-- Integers of 32 bits have short numerals. -/
theorem Word.InRange.fits {i : Int} (h : InRange i) : Numeral.Fits i := by
  have hlt : i.natAbs < 10 ^ 10 := by
    simp only [InRange, least, greatest] at h
    omega
  exact ((Decimal.length_digits_le_iff (by decide)).mpr hlt).trans (by decide)

theorem Scalar.IsProper.not_isOverlong {a : Scalar} (h : a.IsProper) : ¬ (Datum.scalar a).IsOverlong := by
  rw [Datum.isOverlong_scalar_iff]
  rintro ⟨i, rfl, hi⟩
  exact hi (Word.InRange.fits h)

/-! ## Computations -/

/-- A computation gives a result with the property, or a number was too large or too small. If the message
then holds an integer, it is the given one. -/
def Sane {α : Type} (P : α → Prop) (named : Option Int) : Except Fault α → Prop
  | .ok a => P a
  | .error f => f.category = .range ∧ ∀ i ∈ f.integer?, i ∈ named

theorem Sane.of_none {α : Type} {P : α → Prop} {f : Fault} (hcategory : f.category = .range)
    (hinteger : f.integer? = none) : Sane P none (.error f) :=
  ⟨hcategory, fun _ hi => hinteger ▸ hi⟩

/-- The four operations that compute with two numbers. -/
def Operator.IsArithmetic (op : Operator) : Prop :=
  op = .plus ∨ op = .minus ∨ op = .times ∨ op = .divide

theorem Word.sane_operate {op : Operator} (hop : op.IsArithmetic) (a b : Int) :
    Sane InRange none (operate op a b) := by
  rcases hop with rfl | rfl | rfl | rfl
  · exact wrap_inRange _
  · exact wrap_inRange _
  · exact wrap_inRange _
  · change Sane InRange none (if b = 0 then _ else _)
    split
    · exact .of_none rfl rfl
    · exact wrap_inRange _

theorem Word.sane_raised (a b : Int) : Sane InRange (some b) (raised a b) := by
  unfold raised
  split
  · exact ⟨rfl, fun _ hi => hi⟩
  · exact wrap_inRange _

namespace Decimal

theorem isFinite_decimal (x : Float) : (Double.decimal x).IsFinite := by
  unfold Double.decimal
  split
  · trivial
  · dsimp only
    split <;> trivial

theorem isFinite_unsignedZero {d : Decimal} (h : d.IsFinite) : d.unsignedZero.IsFinite := by
  cases d with
  | finite => trivial
  | infinite | nan => exact h

theorem isFinite_quantize? {precision : Nat} {exponent : Int} {d d' : Decimal}
    (h : d.quantize? precision exponent = some d') : d'.IsFinite := by
  cases d with
  | finite negative c e =>
    have hite {n : Nat} (h : (if (digits n).length ≤ precision then
        some (finite negative n exponent) else none) = some d') : d'.IsFinite := by
      split at h <;> cases h
      trivial
    exact hite h
  | infinite | nan => cases h

theorem sane_ofResult (x : Float) : Sane IsFinite none (ofResult x) := by
  unfold ofResult Double.toDecimal?
  split
  next d hd =>
    split at hd <;> cases hd
    exact isFinite_unsignedZero (isFinite_decimal x)
  next => exact .of_none rfl rfl

/-- A quotient is the double quantized. -/
theorem ofQuotient_eq {x : Float} {d : Decimal} (h : ofResult x = .ok d) :
    ofQuotient x = (d.quantize? precision (-1)).elim (.error (.resultRange x)) .ok := by
  unfold ofQuotient
  rw [h]
  cases hd : d.quantize? precision (-1) with
  | none => simp only [bind, Except.bind, hd, Option.elim_none]
  | some d' => simp only [bind, Except.bind, hd, Option.elim_some]

theorem sane_ofQuotient (x : Float) : Sane IsFinite none (ofQuotient x) := by
  cases hx : ofResult x with
  | error f =>
    have hresult := sane_ofResult x
    unfold ofQuotient
    rw [hx] at hresult ⊢
    exact hresult
  | ok d =>
    rw [ofQuotient_eq hx]
    cases hd : d.quantize? precision (-1) with
    | none => exact .of_none rfl rfl
    | some d' => exact isFinite_quantize? hd

theorem sane_operate {op : Operator} (hop : op.IsArithmetic) (a b : Decimal) :
    Sane IsFinite none (operate op a b) := by
  rcases hop with rfl | rfl | rfl | rfl
  · exact sane_ofResult _
  · exact sane_ofResult _
  · exact sane_ofResult _
  · unfold operate
    dsimp only
    split
    · exact .of_none rfl rfl
    · exact sane_ofQuotient _

theorem sane_raised (a : Decimal) (b : Int) : Sane IsFinite none (raised a b) := by
  unfold raised
  dsimp only
  split
  · exact .of_none rfl rfl
  · split
    · split <;> exact .of_none rfl rfl
    · exact sane_ofResult _

/-- Finite decimals are ordered. -/
theorem compare?_isSome {a b : Decimal} (ha : a.IsFinite) (hb : b.IsFinite) :
    (a.compare? b).isNone = false := by
  cases a with
  | finite =>
    cases b with
    | finite => rfl
    | infinite | nan => exact hb.elim
  | infinite | nan => exact ha.elim

end Decimal

end PlcLang
