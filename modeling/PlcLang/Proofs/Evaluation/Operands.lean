import PlcLang.Proofs.Evaluation.Guard
import PlcLang.Proofs.Evaluation.Numbers
import PlcLang.Proofs.Texts
import PlcLang.Proofs.Typing.Expression

/-!
# Operations on operands of given types

What an operation does with values of the types for which the analysis accepts it.

* `Ty.Includes`, `Ty.Admits`: the values of a type, and those that are scalars within bounds.
* `Run.Declines`: why an operation may give no value.
* `Run.operate_admits`: the operators that evaluate both operands.
-/

namespace PlcLang

open Typing

/-! ## Values of a type -/

/-- The scalar is a value of the language, and no decimal without digits. -/
def Scalar.IsFinite : Scalar → Prop
  | decimal d => d.IsFinite
  | double _ => False
  | _ => True

/-- The type of a value, none for a list. -/
def Value.type? : Value → Option Ty
  | scalar a => a.type?
  | _ => none

/-- The values that a static type stands for: those whose type is accepted, and lists as well if all
are. -/
inductive Ty.Includes (τ : Ty) : Value → Prop
  | scalar {a σ} : a.type? = some σ → τ.Accepts σ → a.IsFinite → Includes τ (.scalar a)
  | list {id} : τ = .any → Includes τ (.list id)

/-- The value is a scalar whose type is accepted: any for `Any`, one of an ordered type for
`Comparable`, and otherwise one of just that type. -/
def Ty.Admits (τ : Ty) (v : Value) : Prop :=
  ∃ a σ, v = .scalar a ∧ a.type? = some σ ∧ τ.Accepts σ ∧ a.IsProper

namespace Ty

variable {τ σ : Ty} {v : Value}

theorem Accepts.eq (h : τ.Accepts σ) (hany : τ ≠ .any) (hcomparable : τ ≠ .comparable) : σ = τ := by
  rcases h with h | rfl | ⟨h, -⟩
  · exact absurd h hany
  · rfl
  · exact absurd h hcomparable

theorem Admits.includes (h : τ.Admits v) : τ.Includes v := by
  obtain ⟨a, σ, rfl, hσ, haccepts, ha⟩ := h
  refine .scalar hσ haccepts ?_
  cases a with
  | integer => trivial
  | _ => exact ha

/-- A value of a type that stands for itself. -/
theorem Includes.exists_scalar (h : τ.Includes v) (hany : τ ≠ .any) (hcomparable : τ ≠ .comparable) :
    ∃ a, v = .scalar a ∧ a.type? = some τ ∧ a.IsFinite := by
  cases h with
  | scalar hσ haccepts ha => exact ⟨_, rfl, haccepts.eq hany hcomparable ▸ hσ, ha⟩
  | list h => exact absurd h hany

theorem Includes.boolean (h : Includes .boolean v) : ∃ b, v = .boolean b := by
  obtain ⟨a, rfl, ha, -⟩ := h.exists_scalar (by decide) (by decide)
  cases a <;> cases ha
  exact ⟨_, rfl⟩

theorem Includes.integer (h : Includes .integer v) : ∃ i, v = .integer i := by
  obtain ⟨a, rfl, ha, -⟩ := h.exists_scalar (by decide) (by decide)
  cases a <;> cases ha
  exact ⟨_, rfl⟩

theorem Includes.decimal (h : Includes .decimal v) : ∃ d, v = .decimal d := by
  obtain ⟨a, rfl, ha, -⟩ := h.exists_scalar (by decide) (by decide)
  cases a <;> cases ha
  exact ⟨_, rfl⟩

/-- A value that stands in an order has a type that does. -/
theorem Includes.exists_ordered (h : τ.Includes v) (hτ : Ty.comparable.Accepts τ) :
    ∃ a σ, v = .scalar a ∧ a.type? = some σ ∧ σ ≠ .nil ∧ a.IsFinite := by
  cases h with
  | @scalar a σ hσ haccepts ha =>
    refine ⟨a, σ, rfl, hσ, ?_, ha⟩
    rintro rfl
    exact absurd (hτ.trans haccepts) (by decide)
  | list h => exact absurd (h ▸ hτ) (by decide)

theorem admits_of_literalType (h : LiteralType v τ) : τ.Admits v := by
  cases h with
  | integer hi => exact ⟨_, _, rfl, rfl, .refl _, hi⟩
  | _ => exact ⟨_, _, rfl, rfl, .refl _, trivial⟩

theorem admits_boolean (b : Bool) : Admits .boolean (.boolean b) := admits_of_literalType (.boolean b)

theorem admits_string (s : String) : Admits .string (.string s) := admits_of_literalType (.string s)

theorem admits_integer {i : Int} (h : Word.InRange i) : Admits .integer (.integer i) :=
  admits_of_literalType (.integer h)

theorem admits_decimal {d : Decimal} (h : d.IsFinite) : Admits .decimal (.decimal d) :=
  ⟨_, _, rfl, rfl, .refl _, h⟩

end Ty

/-! ## Operations -/

namespace Run

/-- The values are to be put in order and have different types. -/
def Mixed (op : Operator) (l r : Value) : Prop :=
  (op = .less ∨ op = .greater) ∧ l.type? ≠ r.type?

/-- A value is to be written that has no contents. -/
def Textless (op : Operator) (l r : Value) (s : State Body String) : Prop :=
  op = .plus ∧ (s.store.datum? l = none ∨ s.store.datum? r = none)

/-- An integer that is too long is to be written, in a text or as a negative exponent that is refused. -/
inductive Overlong (op : Operator) (l r : Value) (s : State Body String) : Prop
  | text : op = .plus → l.type? = some .string ∨ r.type? = some .string →
    s.store.IsOverlong l ∨ s.store.IsOverlong r → Overlong op l r s
  | exponent {i} : op = .power → l.type? = some .integer → r = .integer i → i < 0 → ¬ Numeral.Fits i →
    Overlong op l r s

/-- The stops of an operation that has to write what cannot be written. -/
inductive Unwritten (op : Operator) (l r : Value) (s : State Body String) : Stop → Prop
  | textless : Textless op l r s → Unwritten op l r s .unfinished
  | overlong {e} : Overlong op l r s → ¬ e.IsWritable → Unwritten op l r s e

/-- Why an operation may give no value. -/
inductive Declines (op : Operator) (l r : Value) (s : State Body String) : Stop → Prop
  /-- A number is too large or too small. -/
  | range {e} : e.fault.category = .range → e.fault.IsWritable → Declines op l r s (.fault e)
  /-- Values of different types have no order. -/
  | mixed {e} : Mixed op l r → e.fault = .incomparable l.type? r.type? op.symbol →
    Declines op l r s (.fault e)
  /-- Something cannot be written. -/
  | unwritten {e} : Unwritten op l r s e → Declines op l r s e

variable {s : State Body String} {F : Stop → Prop} {τ ρ σ : Ty} {v l r : Value} {op : Operator}

theorem lift_ends {α : Type} {P : α → Prop} {x : Except Fault α} {s₀ : State Body String}
    (h : Sane P none x) : Ends (Declines op l r s₀) (Walk.lift x) s fun a s' => P a ∧ s' = s := by
  refine .lift ?_ ?_
  · rintro a rfl
    exact ⟨h, rfl⟩
  · rintro f rfl
    exact .range h.1 fun i hi => nomatch h.2 i hi

theorem require_ends {c : Bool} {f : Fault} (hF : c ≠ true → F (.raised f)) :
    Ends F (Walk.require c f) s fun _ s' => c = true ∧ s' = s := by
  cases c with
  | true => exact .require rfl ⟨rfl, rfl⟩
  | false => exact .raise (hF Bool.false_ne_true)

theorem typeOf_includes (h : τ.Includes v) : Ends F (typeOf v) s fun t s' => t = v.type? ∧ s' = s := by
  cases h with
  | scalar hσ =>
    refine .reading (fun t ht => ?_) fun e he => ?_
    · simp only [Store.typeOf, hσ] at ht
      cases ht
      exact ⟨hσ.symm, rfl⟩
    · simp only [Store.typeOf, hσ] at he
      cases he
  | list => exact .of_ok rfl ⟨rfl, rfl⟩

theorem requireBoolean_includes (h : Ty.Includes .boolean v) :
    Ends F (requireBoolean v) s fun _ s' => s' = s := by
  obtain ⟨b, rfl⟩ := h.boolean
  exact .pure rfl

/-- A value has a text if it has contents without an integer that is too long. -/
theorem textOf_ends_written (hnone : s.store.datum? v = none → F .unfinished)
    (hoverlong : s.store.IsOverlong v → F .overlong) :
    Ends F (textOf v) s fun _ s' => (s.store.datum? v ≠ none ∧ ¬ s.store.IsOverlong v) ∧ s' = s := by
  refine .reading (fun _ htext => ?_) fun _ he => Store.of_text he hnone hoverlong
  cases htext ▸ s.store.writes_text v with
  | written hsome hshort => exact ⟨⟨hsome, hshort⟩, rfl⟩

theorem equal_scalars {a b : Scalar} (ha : a.type? = some ρ) (hb : b.type? = some σ) :
    Ends F (equal (.scalar a) (.scalar b)) s fun _ s' => s' = s := by
  refine .reading (fun _ _ => rfl) fun e he => ?_
  simp only [Store.equal, Store.equalWithin, Store.equalParts, Store.typeOf, ha, hb] at he
  cases he

/-- Two values of one ordered type can be put in order. -/
theorem compare_admits (hop : op = .less ∨ op = .greater) (hτ : Ty.comparable.Accepts τ)
    (hl : τ.Includes l) (hr : τ.Includes r) :
    Ends (Declines op l r s) (compare op l r) s fun v s' => Ty.Admits .boolean v ∧ s' = s := by
  have hltype := typeOf_includes (F := Declines op l r s) (s := s) hl
  have hrtype := typeOf_includes (F := Declines op l r s) (s := s) hr
  obtain ⟨a, ρ, rfl, ha, hρ, hfiniteA⟩ := hl.exists_ordered hτ
  obtain ⟨b, σ, rfl, hb, -, hfiniteB⟩ := hr.exists_ordered hτ
  have hordered : a.unordered b = false := by
    cases a with
    | decimal c =>
      cases b with
      | decimal d => exact Decimal.compare?_isSome hfiniteA hfiniteB
      | _ => rfl
    | _ => rfl
  have hnil : a.type? ≠ some .nil := fun h => hρ (Option.some.inj (ha.symm.trans h))
  refine hltype.bind ?_
  rintro _ _ ⟨rfl, rfl⟩
  refine hrtype.bind ?_
  rintro _ _ ⟨rfl, rfl⟩
  refine .bind (require_ends fun h => .mixed ⟨hop, fun he => h (decide_eq_true ⟨he, hnil⟩)⟩ rfl) ?_
  rintro _ _ ⟨-, rfl⟩
  rw [hordered]
  exact .pure ⟨Ty.admits_boolean _, rfl⟩

/-- Two numbers of one type can be computed with. -/
theorem arithmetic_admits (hop : op.IsArithmetic) (hτ : τ = .integer ∨ τ = .decimal)
    (hl : τ.Includes l) (hr : τ.Includes r) :
    Ends (Declines op l r s) (arithmetic op l r) s fun v s' => τ.Admits v ∧ s' = s := by
  refine .bind_same ((typeOf_includes hl).mono fun _ _ h => h.2) fun _ => ?_
  refine .bind_same ((typeOf_includes hr).mono fun _ _ h => h.2) fun _ => ?_
  rcases hτ with rfl | rfl
  · obtain ⟨a, rfl⟩ := hl.integer
    obtain ⟨b, rfl⟩ := hr.integer
    refine .bind (lift_ends (Word.sane_operate hop a b)) ?_
    rintro i _ ⟨hi, rfl⟩
    exact .pure ⟨Ty.admits_integer hi, rfl⟩
  · obtain ⟨a, rfl⟩ := hl.decimal
    obtain ⟨b, rfl⟩ := hr.decimal
    refine .bind (lift_ends (Decimal.sane_operate hop a b)) ?_
    rintro d _ ⟨hd, rfl⟩
    exact .pure ⟨Ty.admits_decimal hd, rfl⟩

/-- A power of an integer, unless the exponent is refused. -/
theorem raised_ends (b e : Int) :
    Ends (Declines .power (.integer b) (.integer e) s) (Walk.lift (Word.raised b e)) s
      fun k s' => Word.InRange k ∧ s' = s := by
  unfold Word.raised
  split
  next hneg =>
    refine .raise ?_
    by_cases hfits : Numeral.Fits e
    · exact .range rfl fun i hi => Option.some.inj hi ▸ hfits
    · exact .unwritten (.overlong (.exponent rfl rfl rfl hneg hfits) fun h => hfits (h e rfl))
  next => exact .pure ⟨Word.wrap_inRange _, rfl⟩

/-- A number can be raised to an integer power. -/
theorem power_admits (hτ : τ = .integer ∨ τ = .decimal) (hl : τ.Includes l)
    (hr : Ty.Includes .integer r) :
    Ends (Declines .power l r s) (power l r) s fun v s' => τ.Admits v ∧ s' = s := by
  obtain ⟨e, rfl⟩ := hr.integer
  refine .bind (.pure ⟨rfl, rfl⟩ : Ends _ (requireInteger (.integer e)) s fun i s' => i = e ∧ s' = s) ?_
  rintro _ _ ⟨rfl, rfl⟩
  rcases hτ with rfl | rfl
  · obtain ⟨b, rfl⟩ := hl.integer
    refine .bind (raised_ends b _) ?_
    rintro i _ ⟨hi, rfl⟩
    exact .pure ⟨Ty.admits_integer hi, rfl⟩
  · obtain ⟨b, rfl⟩ := hl.decimal
    refine .bind (lift_ends (Decimal.sane_raised b _)) ?_
    rintro d _ ⟨hd, rfl⟩
    exact .pure ⟨Ty.admits_decimal hd, rfl⟩

/-- One of the values is a text. -/
theorem type?_of_includes (h : ρ = .string ∨ σ = .string) (hl : ρ.Includes l) (hr : σ.Includes r) :
    l.type? = some .string ∨ r.type? = some .string := by
  have hstring {v : Value} (hv : Ty.Includes .string v) : v.type? = some .string := by
    obtain ⟨a, rfl, ha, -⟩ := hv.exists_scalar (by decide) (by decide)
    exact ha
  rcases h with rfl | rfl
  · exact .inl (hstring hl)
  · exact .inr (hstring hr)

/-- Two values can be joined if one of them is a string and both can be written. -/
theorem plus_joins (hl : ρ.Includes l) (hr : σ.Includes r)
    (hstring : l.type? = some .string ∨ r.type? = some .string) :
    Ends (Unwritten .plus l r s) (plus l r) s fun v s' =>
      (Ty.Admits .string v ∧ ¬ Textless .plus l r s ∧ ¬ Overlong .plus l r s) ∧ s' = s := by
  refine .bind (typeOf_includes hl) ?_
  rintro _ _ ⟨rfl, rfl⟩
  refine .bind (typeOf_includes hr) ?_
  rintro _ _ ⟨rfl, rfl⟩
  rw [if_pos hstring]
  refine .bind (textOf_ends_written (fun h => .textless ⟨rfl, .inl h⟩)
    fun h => .overlong (.text rfl hstring (.inl h)) id) ?_
  rintro _ _ ⟨⟨hsomeL, hshortL⟩, rfl⟩
  refine .bind (textOf_ends_written (fun h => .textless ⟨rfl, .inr h⟩)
    fun h => .overlong (.text rfl hstring (.inr h)) id) ?_
  rintro _ _ ⟨⟨hsomeR, hshortR⟩, rfl⟩
  refine .pure ⟨⟨Ty.admits_string _, fun h => h.2.elim hsomeL hsomeR, fun h => ?_⟩, rfl⟩
  cases h with
  | text _ _ h => exact h.elim hshortL hshortR
  | exponent h => cases h

/-- A sum of two numbers. -/
theorem plus_admits (hτ : τ = .integer ∨ τ = .decimal) (hl : τ.Includes l) (hr : τ.Includes r) :
    Ends (Declines .plus l r s) (plus l r) s fun v s' => τ.Admits v ∧ s' = s := by
  have hne {v : Value} (h : τ.Includes v) : v.type? ≠ some .string := by
    intro hstring
    rcases hτ with rfl | rfl
    · obtain ⟨i, rfl⟩ := h.integer
      cases hstring
    · obtain ⟨d, rfl⟩ := h.decimal
      cases hstring
  refine .bind (typeOf_includes hl) ?_
  rintro _ _ ⟨rfl, rfl⟩
  refine .bind (typeOf_includes hr) ?_
  rintro _ _ ⟨rfl, rfl⟩
  rw [if_neg (not_or.mpr ⟨hne hl, hne hr⟩)]
  exact arithmetic_admits (.inl rfl) hτ hl hr

/-- Values that are mixed are known to be ordered and no more. -/
theorem Mixed.eq_comparable (h : Mixed op l r) (hτ : OperatorType op ρ σ τ) (hl : ρ.Includes l)
    (hr : σ.Includes r) : ρ = .comparable ∧ σ = .comparable := by
  obtain ⟨hop, htypes⟩ := h
  cases hτ with
  | comparison _ haccepts =>
    suffices ρ = .comparable from ⟨this, this⟩
    refine Classical.byContradiction fun hcomparable => htypes ?_
    have hany : ρ ≠ .any := by
      rintro rfl
      exact absurd haccepts (by decide)
    obtain ⟨a, rfl, ha, -⟩ := hl.exists_scalar hany hcomparable
    obtain ⟨b, rfl, hb, -⟩ := hr.exists_scalar hany hcomparable
    exact ha.trans hb.symm
  | logical h => rcases hop with rfl | rfl <;> cases h
  | arithmetic h => rcases hop with rfl | rfl <;> simp at h
  | concatenation | power => rcases hop with hop | hop <;> cases hop

/-- **All operations give values of their types**, unless they decline. -/
theorem operate_admits (h : OperatorType op ρ σ τ) (hl : ρ.Includes l) (hr : σ.Includes r) :
    Ends (Declines op l r s) (operate op l r) s fun v s' => τ.Admits v ∧ s' = s := by
  cases h with
  | logical hop =>
    have hboth {f : Bool → Bool → Bool} : Ends (Declines op l r s)
        (do return Value.boolean (f (← requireBoolean l) (← requireBoolean r)) : Run Value) s
          fun v s' => Ty.Admits .boolean v ∧ s' = s :=
      .bind_same (requireBoolean_includes hl) fun _ =>
        .bind_same (requireBoolean_includes hr) fun _ => .pure ⟨Ty.admits_boolean _, rfl⟩
    cases op with
    | and | or => exact hboth
    | _ => cases hop
  | comparison hop haccepts =>
    cases op with
    | equal | unequal =>
      obtain ⟨a, _, rfl, ha, -⟩ := hl.exists_ordered haccepts
      obtain ⟨b, _, rfl, hb, -⟩ := hr.exists_ordered haccepts
      exact .bind_same (equal_scalars ha hb) fun _ => .pure ⟨Ty.admits_boolean _, rfl⟩
    | less => exact compare_admits (.inl rfl) haccepts hl hr
    | greater => exact compare_admits (.inr rfl) haccepts hl hr
    | _ => cases hop
  | concatenation h =>
    exact (plus_joins hl hr (type?_of_includes h hl hr)).weaken (fun _ => .unwritten) fun _ _ h => ⟨h.1.1, h.2⟩
  | arithmetic hop hτ =>
    have harithmetic := arithmetic_admits (s := s) hop hτ hl hr
    rcases hop with rfl | rfl | rfl | rfl
    · exact plus_admits hτ hl hr
    · exact harithmetic
    · exact harithmetic
    · exact harithmetic
  | power hτ => exact power_admits hτ hl hr

/-! ## What cannot be written -/

/-- A value without contents can only be joined with a text. -/
theorem Textless.eq_string (h : Textless op l r s) (hτ : OperatorType op ρ σ τ) (hl : ρ.Includes l)
    (hr : σ.Includes r) : ρ = .string ∨ σ = .string := by
  obtain ⟨rfl, hdatum⟩ := h
  cases hτ with
  | concatenation h => exact h
  | arithmetic _ hnumber =>
    have hsome {v : Value} (hv : τ.Includes v) : s.store.datum? v ≠ none := by
      cases hv with
      | scalar => exact Option.some_ne_none _
      | list h => rcases hnumber with rfl | rfl <;> cases h
    exact (hdatum.elim (hsome hl) (hsome hr)).elim
  | logical h | comparison h => cases h

/-- A negative exponent that is too long is refused, but not in words. -/
theorem power_unwritten {i : Int} (hl : l.type? = some .integer) (hi : i < 0) (hfits : ¬ Numeral.Fits i) :
    Ends (Unwritten .power l (.integer i) s) (power l (.integer i)) s fun _ _ => False := by
  obtain ⟨b, rfl⟩ : ∃ b, l = .integer b := by
    cases l with
    | scalar a =>
      cases a <;> cases hl
      exact ⟨_, rfl⟩
    | _ => cases hl
  refine .bind (.pure ⟨rfl, rfl⟩ : Ends _ (requireInteger (.integer i)) s fun j s' => j = i ∧ s' = s) ?_
  rintro _ _ ⟨rfl, rfl⟩
  refine .bind (P := fun _ _ => False) ?_ fun _ _ h => h.elim
  rw [Word.raised, if_pos hi]
  exact .raise (.overlong (.exponent rfl rfl rfl hi hfits) fun h => hfits (h _ rfl))

/-- An operation gives no value if it has to write what cannot be written. -/
theorem operate_unwritten (h : OperatorType op ρ σ τ) (hl : ρ.Includes l) (hr : σ.Includes r)
    (hno : Textless op l r s ∨ Overlong op l r s) :
    Ends (Unwritten op l r s) (operate op l r) s fun _ _ => False := by
  rcases hno with hno | ⟨rfl, hstring, hlong⟩ | ⟨rfl, hbase, rfl, hneg, hfits⟩
  · obtain rfl := hno.1
    have hstring := type?_of_includes (hno.eq_string h hl hr) hl hr
    exact (plus_joins hl hr hstring).mono fun _ _ h => h.1.2.1 hno
  · exact (plus_joins hl hr hstring).mono fun _ _ h => h.1.2.2 (.text rfl hstring hlong)
  · exact power_unwritten hbase hneg hfits

end Run

end PlcLang
