import PlcLang.Proofs.Contents
import PlcLang.Proofs.Evaluation.Operands

/-!
# Agreement on operations

An operation that the analysis has accepted gives a value of the type that the analysis has found, or a
number is too large or too small. There are three exceptions: values of different types that are only
known to be ordered have no order, a list that contains itself has no text, and an integer that is too
long is not written.

* `Run.Prepared`: an operation that the analysis has accepted, and the values of its operands.
* `Run.Settles`: it gives a value of its type, or a number is too large or too small.
* `Run.operation_settles_iff`: the result.
-/

namespace PlcLang.Run

open Typing Walk

variable {V : Node → Run Value} {F : Stop → Prop} {op : Operator} {left right : Node} {t : Option Ty}
  {p : Place} {ρ σ τ : Ty} {l r : Value} {depth : Nat} {s s₁ s₂ : State Body String}

/-! ## Both operands -/

/-- An operation that is not logical evaluates both operands. -/
theorem operation_ends {Q : Value → State Body String → Prop} (hop : op.level? ≠ some .logical)
    (hl : V left s = .ok l s₁) (hr : V right s₁ = .ok r s₂) (h : Ends F (operate op l r) s₂ Q) :
    Ends F (operation V op left right) s Q := by
  have hboth : Ends F (do operate op l (← V right) : Run Value) s₁ Q := by
    refine .bind (.of_ok (Q := fun c t => c = r ∧ t = s₂) hr ⟨rfl, rfl⟩) ?_
    rintro _ _ ⟨rfl, rfl⟩
    exact h
  refine .bind (.of_ok (Q := fun c t => c = l ∧ t = s₁) hl ⟨rfl, rfl⟩) ?_
  rintro _ _ ⟨rfl, rfl⟩
  cases op with
  | and | or => exact absurd rfl hop
  | _ => exact hboth

/-- A logical operation may leave out its right operand. -/
theorem operation_admits_boolean (hop : op.level? = some .logical) (hl : V left s = .ok l s₁)
    (hr : V right s₁ = .ok r s₂) (hl' : Ty.Includes .boolean l) (hr' : Ty.Includes .boolean r) :
    Ends F (operation V op left right) s fun v _ => Ty.Admits .boolean v := by
  obtain ⟨a, rfl⟩ := hl'.boolean
  obtain ⟨b, rfl⟩ := hr'.boolean
  have hright : Ends F (do return .boolean (← requireBoolean (← V right)) : Run Value) s₁
      fun v _ => Ty.Admits .boolean v := by
    refine .bind (.of_ok (Q := fun c t => c = .boolean b ∧ t = s₂) hr ⟨rfl, rfl⟩) ?_
    rintro _ _ ⟨rfl, rfl⟩
    exact .pure (Ty.admits_boolean b)
  refine .bind (.of_ok (Q := fun c t => c = .boolean a ∧ t = s₁) hl ⟨rfl, rfl⟩) ?_
  rintro _ _ ⟨rfl, rfl⟩
  cases op with
  | and =>
    cases a with
    | true => exact hright
    | false => exact .pure (Ty.admits_boolean _)
  | or =>
    cases a with
    | true => exact .pure (Ty.admits_boolean _)
    | false => exact hright
  | _ => cases hop

theorem operation_admits (h : OperatorType op ρ σ τ) (hl : V left s = .ok l s₁)
    (hr : V right s₁ = .ok r s₂) (hl' : ρ.Includes l) (hr' : σ.Includes r) :
    Ends (Declines op l r s₂) (operation V op left right) s fun v _ => τ.Admits v := by
  by_cases hop : op.level? = some .logical
  · cases h with
    | logical => exact operation_admits_boolean hop hl hr hl' hr'
    | comparison h => exact absurd (hop.symm.trans h) (by decide)
    | arithmetic h => rcases h with rfl | rfl | rfl | rfl <;> cases hop
    | concatenation | power => cases hop
  · exact operation_ends hop hl hr ((operate_admits h hl' hr').mono fun _ _ h => h.1)

/-! ## Exceptions -/

/-- The values are refused because they have no order. -/
def Refuses (op : Operator) (l r : Value) (e : Stop) : Prop :=
  ∃ d, e = .fault d ∧ d.fault = .incomparable l.type? r.type? op.symbol

theorem Refuses.attach {e : Located Fault} (n : Node) (h : Refuses op l r (.fault e)) :
    Refuses op l r (.fault (e.attach n)) := by
  obtain ⟨d, hd, hfault⟩ := h
  cases hd
  exact ⟨_, rfl, (e.fault_attach n).trans hfault⟩

/-- Values of different types are not put in order. -/
theorem compare_mixed (h : Mixed op l r) (hτ : Ty.comparable.Accepts τ) (hl : τ.Includes l)
    (hr : τ.Includes r) : Ends (Refuses op l r) (compare op l r) s fun _ _ => False := by
  have hltype := typeOf_includes (F := Refuses op l r) (s := s) hl
  have hrtype := typeOf_includes (F := Refuses op l r) (s := s) hr
  obtain ⟨a, _, rfl, -⟩ := hl.exists_ordered hτ
  obtain ⟨b, _, rfl, -⟩ := hr.exists_ordered hτ
  refine hltype.bind ?_
  rintro _ _ ⟨rfl, rfl⟩
  refine hrtype.bind ?_
  rintro _ _ ⟨rfl, rfl⟩
  refine .bind (require_ends fun _ => ⟨_, rfl, rfl⟩) ?_
  rintro _ _ ⟨heq, rfl⟩
  exact absurd (of_decide_eq_true heq).1 h.2

/-! ## Accepted operations -/

/-- A list is to be written that contains itself. -/
def Circular (op : Operator) (l r : Value) (s : State Body String) : Prop :=
  op = .plus ∧ (s.store.IsCircular l ∨ s.store.IsCircular r)

/-- The analysis has accepted an operation, on operands of the types `ρ` and `σ`, as one of type `τ`.
In the run its operands have the values `l` and `r`, which are of their types, and leave the state
`s₂`. -/
structure Prepared (depth : Nat) (s : State Body String) (op : Operator) (left right : Node)
    (p : Place) (ρ σ τ : Ty) (l r : Value) (s₂ : State Body String) : Prop where
  accepted : ∃ x y t S S',
    Analysis.visit (.binary op x y t p) S = .ok (.binary op left right (some τ) p) S'
  left_type : left.type? = some ρ
  right_type : right.type? = some σ
  evaluated : ∃ s₁, visit depth left s = .ok l s₁ ∧ visit depth right s₁ = .ok r s₂
  left_includes : ρ.Includes l
  right_includes : σ.Includes r
  /-- The left value is no list that is not there. -/
  left_known : s₂.store.Knows l
  /-- Neither is the right value. -/
  right_known : s₂.store.Knows r
  /-- Neither is what lists have as items. -/
  closed : s₂.store.IsClosed

/-- The node has a value of the type, or a number is too large or too small. -/
def Settles (depth : Nat) (n : Node) (s : State Body String) (τ : Ty) : Prop :=
  (∃ v t, visit depth n s = .ok v t ∧ τ.Includes v) ∨
    ∃ e t, visit depth n s = .error (.fault e) t ∧ e.fault.category = .range ∧ e.fault.IsWritable

/-- How an evaluation ends. -/
theorem exists_of_ends {α : Type} {x : Run α} {Q : α → State Body String → Prop} (h : Ends F x s Q) :
    (∃ a t, x s = .ok a t ∧ Q a t) ∨ ∃ e t, x s = .error e t ∧ F e := by
  obtain ⟨-, h⟩ := h
  cases hx : x s with
  | ok a t =>
    rw [hx] at h
    exact .inl ⟨a, t, rfl, h⟩
  | error e t =>
    rw [hx] at h
    exact .inr ⟨e, t, rfl, h⟩

/-- The evaluation of an operation ends as the operation does; a fault is attached to it. -/
theorem visit_binary_ends {Q : Value → State Body String → Prop}
    (h : Ends F (operation (visit depth) op left right) s Q)
    (hF : ∀ (e : Located Fault) n, F (.fault e) → F (.fault (e.attach n))) :
    Ends F (visit (depth + 1) (.binary op left right t p)) s Q :=
  Agrees.attached h fun e => hF e _

/-- An operation that cannot succeed ends with a stop that is allowed. -/
theorem visit_binary_eq_error (h : Ends F (operation (visit depth) op left right) s fun _ _ => False)
    (hF : ∀ (e : Located Fault) n, F (.fault e) → F (.fault (e.attach n))) :
    ∃ e s', visit (depth + 1) (.binary op left right t p) s = .error e s' ∧ F e := by
  rcases exists_of_ends (visit_binary_ends h hF) with ⟨_, _, _, hfalse⟩ | he
  · exact hfalse.elim
  · exact he

theorem Unwritten.attach {e : Located Fault} (n : Node) (h : Unwritten op l r s (.fault e)) :
    Unwritten op l r s (.fault (e.attach n)) := by
  cases h with
  | overlong hoverlong he => exact .overlong hoverlong fun h => he (by rwa [Stop.IsWritable, e.fault_attach] at h)

theorem Declines.attach {e : Located Fault} (n : Node) (h : Declines op l r s (.fault e)) :
    Declines op l r s (.fault (e.attach n)) := by
  cases h with
  | range he hwritable =>
    rw [← e.fault_attach n] at he hwritable
    exact .range he hwritable
  | mixed hmixed he => exact .mixed hmixed ((e.fault_attach n).trans he)
  | unwritten h => exact .unwritten (h.attach n)

namespace Prepared

/-- The analysis has asked for types that the operator allows. -/
theorem operatorType (h : Prepared depth s op left right p ρ σ τ l r s₂) : OperatorType op ρ σ τ := by
  obtain ⟨x, y, t, S, S', hd⟩ := h.accepted
  rw [Analysis.visit_eq, attached_eq_ok, Analysis.step] at hd
  simp only [bind_eq_ok, pure_eq_ok, typeOf_eq_ok, lift_eq_ok, Node.binary.injEq] at hd
  obtain ⟨_, _, -, _, _, -, ρ', _, ⟨hρ, rfl⟩, σ', _, ⟨hσ, rfl⟩, υ, _, ⟨hυ, rfl⟩, ⟨-, rfl, rfl, ⟨⟩, -⟩, -⟩ := hd
  obtain rfl := Option.some.inj (hρ.symm.trans h.left_type)
  obtain rfl := Option.some.inj (hσ.symm.trans h.right_type)
  exact resultType_eq_ok_iff.mp hυ

/-- Only a list that contains itself has no text. -/
theorem textless_iff (h : Prepared depth s op left right p ρ σ τ l r s₂) :
    Textless op l r s₂ ↔ Circular op l r s₂ := by
  rw [Textless, Circular, Store.datum?_eq_none_iff h.closed h.left_known,
    Store.datum?_eq_none_iff h.closed h.right_known]

/-- The operation settles unless it is one of the exceptions. -/
theorem settles (h : Prepared depth s op left right p ρ σ τ l r s₂) (hmixed : ¬ Mixed op l r)
    (hcircular : ¬ Circular op l r s₂) (hoverlong : ¬ Overlong op l r s₂) :
    Settles (depth + 1) (.binary op left right (some τ) p) s τ := by
  obtain ⟨s₁, hl, hr⟩ := h.evaluated
  have hends := operation_admits h.operatorType hl hr h.left_includes h.right_includes
  rcases exists_of_ends (visit_binary_ends hends fun _ n => Declines.attach n) with
    ⟨v, t, hv, hadmits⟩ | ⟨e, t, he, hdeclines⟩
  · exact .inl ⟨v, t, hv, hadmits.includes⟩
  · cases hdeclines with
    | range hrange hwritable => exact .inr ⟨_, t, he, hrange, hwritable⟩
    | mixed h => exact absurd h hmixed
    | unwritten hunwritten =>
      cases hunwritten with
      | textless htextless => exact absurd (h.textless_iff.mp htextless) hcircular
      | overlong h => exact absurd h hoverlong

/-- Values of different types that are only known to be ordered are refused. -/
theorem refused (h : Prepared depth s op left right p ρ σ τ l r s₂) (hmixed : Mixed op l r) :
    ρ = .comparable ∧ σ = .comparable ∧ ∃ e t,
      visit (depth + 1) (.binary op left right (some τ) p) s = .error (.fault e) t ∧
        e.fault = .incomparable l.type? r.type? op.symbol := by
  obtain ⟨s₁, hl, hr⟩ := h.evaluated
  obtain ⟨rfl, rfl⟩ := hmixed.eq_comparable h.operatorType h.left_includes h.right_includes
  refine ⟨rfl, rfl, ?_⟩
  have hcompare := compare_mixed (s := s₂) hmixed (.refl _) h.left_includes h.right_includes
  have hends : Ends (Refuses op l r) (operation (visit depth) op left right) s fun _ _ => False := by
    rcases hmixed.1 with rfl | rfl
    · exact operation_ends (by decide) hl hr hcompare
    · exact operation_ends (by decide) hl hr hcompare
  obtain ⟨_, t, he, d, rfl, hd⟩ := visit_binary_eq_error hends fun _ n => Refuses.attach n
  exact ⟨d, t, he, hd⟩

/-- The text of a list that contains itself does not come to an end, and an integer that is too long is
not written. -/
theorem unwritten (h : Prepared depth s op left right p ρ σ τ l r s₂)
    (hno : Circular op l r s₂ ∨ Overlong op l r s₂) :
    ∃ e t, visit (depth + 1) (.binary op left right (some τ) p) s = .error e t ∧
      (e = .unfinished ∧ Circular op l r s₂ ∨ ¬ e.IsWritable ∧ Overlong op l r s₂) := by
  obtain ⟨s₁, hl, hr⟩ := h.evaluated
  rw [← h.textless_iff] at hno ⊢
  have hop : op.level? ≠ some .logical := by
    rcases hno with ⟨rfl, -⟩ | ⟨rfl, -, -⟩ | ⟨rfl, -, -, -, -⟩
    all_goals exact nofun
  have hends : Ends (Unwritten op l r s₂) (operation (visit depth) op left right) s fun _ _ => False :=
    operation_ends hop hl hr (operate_unwritten h.operatorType h.left_includes h.right_includes hno)
  obtain ⟨e, t, he, hunwritten⟩ := visit_binary_eq_error hends fun _ n => Unwritten.attach n
  refine ⟨e, t, he, ?_⟩
  cases hunwritten with
  | textless h => exact .inl ⟨rfl, h⟩
  | overlong h he => exact .inr ⟨he, h⟩

/-- What is refused does not settle. -/
theorem not_settles_of_mixed (h : Prepared depth s op left right p ρ σ τ l r s₂)
    (hmixed : Mixed op l r) : ¬ Settles (depth + 1) (.binary op left right (some τ) p) s τ := by
  obtain ⟨-, -, e, t, he, hfault⟩ := h.refused hmixed
  rintro (⟨v, t', hv, -⟩ | ⟨e', t', he', hrange, -⟩)
  · cases he.symm.trans hv
  · cases he.symm.trans he'
    rw [hfault] at hrange
    cases hrange

/-- Neither does what cannot be written. -/
theorem not_settles_of_unwritten (h : Prepared depth s op left right p ρ σ τ l r s₂)
    (hno : Circular op l r s₂ ∨ Overlong op l r s₂) :
    ¬ Settles (depth + 1) (.binary op left right (some τ) p) s τ := by
  obtain ⟨e, t, he, hstop⟩ := h.unwritten hno
  rintro (⟨v, t', hv, -⟩ | ⟨e', t', he', -, hwritable⟩)
  · cases he.symm.trans hv
  · cases he.symm.trans he'
    rcases hstop with ⟨hstop, -⟩ | ⟨hstop, -⟩
    · cases hstop
    · exact hstop hwritable

end Prepared

/-! ## All pairs of values -/

/-- The state of an analysis in which `a` and `b` are variables of two types. -/
def declaring (ρ σ : Ty) : State Unit (Option Ty) :=
  ⟨{ scopes := #[{ «variables» := [{ name := "a", type := ρ }, { name := "b", type := σ }] }] },
    { scope := 0 }, none⟩

/-- The state of a run in which these variables have two values. -/
def holding (lists : Array (Array Value)) (l r : Value) : State Body String :=
  ⟨{ scopes := #[{ «variables» := [{ name := "a", value := l }, { name := "b", value := r }] }],
      lists }, { scope := 0 }, ""⟩

/-- An access to one of the variables, of a type. -/
def accessTo (name : Name) (τ : Ty) : Node := .access name .missing τ (some ⟨0, name⟩) .unknown

/-- All values of all types for which an operation is accepted occur as its operands. -/
theorem prepared_of_includes (lists : Array (Array Value)) (h : op.resultType ρ σ = .ok τ)
    (hl : ρ.Includes l) (hr : σ.Includes r) (hl' : (holding lists l r).store.Knows l)
    (hr' : (holding lists l r).store.Knows r) (hclosed : (holding lists l r).store.IsClosed) :
    Prepared 1 (holding lists l r) op (accessTo "a" ρ) (accessTo "b" σ) .unknown ρ σ τ l r
      (holding lists l r) := by
  refine ⟨⟨.access "a" .missing none none .unknown, .access "b" .missing none none .unknown, none,
    declaring ρ σ, declaring ρ σ, ?_⟩, rfl, rfl, ⟨holding lists l r, rfl, rfl⟩, hl, hr, hl', hr',
    hclosed⟩
  rw [Analysis.visit_eq, attached_eq_ok, Analysis.step]
  simp only [bind_eq_ok, pure_eq_ok, typeOf_eq_ok, lift_eq_ok]
  exact ⟨accessTo "a" ρ, _, rfl, accessTo "b" σ, _, rfl, ρ, _, ⟨rfl, rfl⟩, σ, _, ⟨rfl, rfl⟩, τ, _,
    ⟨h, rfl⟩, rfl, rfl⟩

/-! ## Agreement -/

/-- **Analysis and run agree on operations.** On values of the types for which the analysis accepts an
operation, it gives a value of the type that the analysis has found or a number is too large or too
small, with three exceptions. Values are to be put in order that are of different types; then both
operands are only known to be ordered, and this is the fault. Or a list that contains itself is to be
written, or an integer that is too long; then there is no value and no fault that can be put into
words. -/
theorem operation_settles_iff (h : Prepared depth s op left right p ρ σ τ l r s₂) :
    (Settles (depth + 1) (.binary op left right (some τ) p) s τ ↔
        ¬ Mixed op l r ∧ ¬ Circular op l r s₂ ∧ ¬ Overlong op l r s₂) ∧
      (Mixed op l r → ρ = .comparable ∧ σ = .comparable ∧ ∃ e t,
        visit (depth + 1) (.binary op left right (some τ) p) s = .error (.fault e) t ∧
          e.fault = .incomparable l.type? r.type? op.symbol) ∧
      (Circular op l r s₂ ∨ Overlong op l r s₂ → ∃ e t,
        visit (depth + 1) (.binary op left right (some τ) p) s = .error e t ∧
          (e = .unfinished ∧ Circular op l r s₂ ∨ ¬ e.IsWritable ∧ Overlong op l r s₂)) := by
  refine ⟨⟨fun hsettles => ⟨fun hmixed => ?_, fun hcircular => ?_, fun hoverlong => ?_⟩, fun hno => ?_⟩,
    h.refused, h.unwritten⟩
  · exact h.not_settles_of_mixed hmixed hsettles
  · exact h.not_settles_of_unwritten (.inl hcircular) hsettles
  · exact h.not_settles_of_unwritten (.inr hoverlong) hsettles
  · exact h.settles hno.1 hno.2.1 hno.2.2

/-- A text is joined with a list. -/
theorem operation_settles_joined :
    Prepared 1 (holding #[#[.integer 1]] (.string "x") (.list 0)) .plus (accessTo "a" .string)
        (accessTo "b" .any) .unknown .string .any .string (.string "x") (.list 0)
        (holding #[#[.integer 1]] (.string "x") (.list 0)) ∧
      Settles 2 (.binary .plus (accessTo "a" .string) (accessTo "b" .any) (some .string) .unknown)
        (holding #[#[.integer 1]] (.string "x") (.list 0)) .string := by
  have hplus : Operator.plus.resultType .string .any = .ok .string := rfl
  have hprepared := prepared_of_includes #[#[.integer 1]] hplus
    (.scalar (a := .string "x") rfl (.refl .string) trivial) (.list rfl : Ty.Includes .any (.list 0))
    (by decide) (by decide) (by decide)
  have hsettles := (operation_settles_iff hprepared).1.mpr
  refine ⟨hprepared, hsettles ⟨fun hmixed => ?_, fun hcircular => ?_, fun hoverlong => ?_⟩⟩
  · rcases hmixed.1 with h | h <;> cases h
  · rcases (hprepared.textless_iff.mpr hcircular).2 with h | h <;> cases h
  · rcases hoverlong with ⟨-, -, ⟨d, hd, h⟩ | ⟨d, hd, h⟩⟩ | h
    · cases hd
      cases h
    · cases hd
      cases (Datum.text?_eq_none_iff _).mpr h
    · cases h

/-- Without the exceptions this is false: an integer and a text that are only known to be ordered are
refused, and a list that contains itself has no text. -/
theorem not_forall_settles :
    (¬ ∀ depth s left right p ρ σ τ l r s₂, Prepared depth s .less left right p ρ σ τ l r s₂ →
        Settles (depth + 1) (.binary .less left right (some τ) p) s τ) ∧
      ¬ ∀ depth s left right p ρ σ τ l r s₂, Prepared depth s .plus left right p ρ σ τ l r s₂ →
        Settles (depth + 1) (.binary .plus left right (some τ) p) s τ := by
  refine ⟨fun h => ?_, fun h => ?_⟩
  · have hless : Operator.less.resultType .comparable .comparable = .ok .boolean := rfl
    have hprepared := prepared_of_includes #[] hless
      (.scalar (a := .integer 1) (τ := .comparable) rfl (.inr (.inr ⟨rfl, rfl⟩)) trivial)
      (.scalar (a := .string "x") rfl (.inr (.inr ⟨rfl, rfl⟩)) trivial)
      (by decide) (by decide) (by decide)
    have hmixed : Mixed .less (.integer 1) (.string "x") := ⟨.inl rfl, by decide⟩
    exact hprepared.not_settles_of_mixed hmixed (h _ _ _ _ _ _ _ _ _ _ _ hprepared)
  · have hplus : Operator.plus.resultType .string .any = .ok .string := rfl
    have hprepared := prepared_of_includes #[#[.list 0]] hplus
      (.scalar (a := .string "x") rfl (.refl .string) trivial) (.list rfl : Ty.Includes .any (.list 0))
      (by decide) (by decide) (by decide)
    have hcircular : Circular .plus (.string "x") (.list 0)
        (holding #[#[.list 0]] (.string "x") (.list 0)) :=
      ⟨rfl, .inr ⟨0, 0, rfl, .refl, .single ⟨.list 0, List.mem_singleton.mpr rfl, rfl⟩⟩⟩
    exact hprepared.not_settles_of_unwritten (.inl hcircular) (h _ _ _ _ _ _ _ _ _ _ _ hprepared)

end PlcLang.Run
