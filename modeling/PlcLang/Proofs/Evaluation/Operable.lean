import PlcLang.Proofs.Evaluation.Numbers

/-!
# Operations on any values

Operations leave the state alone, and what they give depends on the values, not on what the analysis has
found out about them. They stop with faults about types and ranges, or because something about a value
cannot be found out.

* `Operator.Gives`: what an operation gives.
* `Operable`: two values, and the stops that operations on them may end with.
* `Operable.operate_gives`: all operators.
* `operate_ends`, `equal_ends`, …: no operation is at fault about a name.
-/

namespace PlcLang

/-! ## Results -/

/-- What an operator gives for two values: a truth value, a text or a number within bounds. -/
inductive Operator.Gives : Operator → Value → Value → Value → Prop
  | truth {op l r b} : op ≠ .plus → ¬ op.IsArithmetic → op ≠ .power → Gives op l r (.boolean b)
  | text {l r t} : (∃ u, l = .string u) ∨ (∃ u, r = .string u) → Gives .plus l r (.string t)
  | integer {op i j k} : op.IsArithmetic ∨ op = .power → Word.InRange k →
      Gives op (.integer i) (.integer j) (.integer k)
  | decimal {op c d e} : op.IsArithmetic → e.IsFinite → Gives op (.decimal c) (.decimal d) (.decimal e)
  | power {c i e} : e.IsFinite → Gives .power (.decimal c) (.integer i) (.decimal e)

/-- What an operation gives is a scalar that a program may have. -/
theorem Operator.Gives.exists_proper {op : Operator} {l r v : Value} (h : op.Gives l r v) :
    ∃ a, v = .scalar a ∧ a.IsProper := by
  cases h with
  | truth | text => exact ⟨_, rfl, trivial⟩
  | integer _ h | decimal _ h | power h => exact ⟨_, rfl, h⟩

/-! ## Faults -/

/-- What an operation on values may be at fault for: operands that do not fit, and numbers that are
too large or too small. -/
def Fault.IsOperational : Fault → Prop
  | unexpectedType .. | incomparable .. | unfitOperands .. | unfitBase _ => True
  | f => f.category = .range

theorem Fault.IsOperational.of_range {f : Fault} (h : f.category = .range) : f.IsOperational := by
  unfold IsOperational
  split
  · trivial
  · trivial
  · trivial
  · trivial
  · exact h

theorem Fault.IsOperational.category {f : Fault} (h : f.IsOperational) :
    f.category = .type ∨ f.category = .range := by
  unfold IsOperational at h
  split at h
  · exact .inl rfl
  · exact .inl rfl
  · exact .inl rfl
  · exact .inl rfl
  · exact .inr h

namespace Run

variable {F : Stop → Prop} {s : State Body String} {v l r : Value} {op : Operator}

/-! ## Values that are asked -/

/-- Whatever is asked of the value, every stop satisfies `F`. -/
structure Answers (F : Stop → Prop) (s : State Body String) (v : Value) : Prop where
  /-- A fault of an operation. No other integer than the value is in its message. -/
  raised {f : Fault} : f.IsOperational → (∀ i ∈ f.integer?, v = .integer i) → F (.raised f)
  typeOf {e : Stop} : s.store.typeOf v = .error e → F e
  text {e : Stop} : s.store.text v = .error e → F e

/-- The same for two values that are operands. -/
structure Operable (F : Stop → Prop) (s : State Body String) (l r : Value) : Prop where
  left : Answers F s l
  right : Answers F s r
  equal {e : Stop} : s.store.equal l r = .error e → F e
  /-- They are put in order. -/
  unordered {a b : Scalar} : l = .scalar a → r = .scalar b → a.unordered b = true → F .unordered

namespace Answers

/-- A fault without an integer in its message. -/
theorem unfit {f : Fault} (h : Answers F s v) (hf : f.IsOperational) (hinteger : f.integer? = none) :
    F (.raised f) := h.raised hf fun _ hi => nomatch hinteger.symm.trans hi

theorem typeOf_ends (h : Answers F s v) :
    Ends F (Run.typeOf v) s fun t s' => s' = s ∧ s.store.typeOf v = .ok t :=
  .reading (fun _ ht => ⟨rfl, ht⟩) fun _ he => h.typeOf he

theorem textOf_ends (h : Answers F s v) : Ends F (textOf v) s fun _ s' => s' = s :=
  .reading (fun _ _ => rfl) fun _ he => h.text he

/-- A value that does not fit is a fault about types. -/
theorem unfit_ends {α : Type} {f : Option Ty → Fault} (h : Answers F s v)
    (hf : ∀ t, (f t).IsOperational ∧ (f t).integer? = none) {Q : α → State Body String → Prop} :
    Ends F (do Walk.raise (f (← Run.typeOf v))) s Q :=
  .bind_same (h.typeOf_ends.mono fun _ _ h => h.1) fun t => .raise (h.unfit (hf t).1 (hf t).2)

theorem requireBoolean_ends (h : Answers F s v) : Ends F (requireBoolean v) s fun _ s' => s' = s := by
  unfold requireBoolean
  split
  · exact .pure rfl
  · exact h.unfit_ends (f := .unexpectedType .boolean) fun _ => ⟨trivial, rfl⟩

theorem requireInteger_ends (h : Answers F s v) :
    Ends F (requireInteger v) s fun i s' => v = .integer i ∧ s' = s := by
  unfold requireInteger
  split
  · exact .pure ⟨rfl, rfl⟩
  · exact h.unfit_ends (f := .unexpectedType .integer) fun _ => ⟨trivial, rfl⟩

end Answers

theorem exists_string_of_typeOf (h : s.store.typeOf v = .ok (some .string)) : ∃ t, v = .string t := by
  rcases Store.typeOf_cases h with ⟨a, _, rfl, ha, ⟨⟩⟩ | ⟨_, -, ⟨⟩⟩
  cases a <;> cases ha
  exact ⟨_, rfl⟩

/-! ## Operators -/

namespace Operable

/-- The message of a computation that is refused holds no integer but the right operand. -/
theorem lift_ends {α : Type} {P : α → Prop} {named : Option Int} {x : Except Fault α} (h : Operable F s l r)
    (hx : Sane P named x) (hnamed : ∀ i ∈ named, r = .integer i) :
    Ends F (Walk.lift x) s fun a s' => s' = s ∧ P a := by
  refine .lift ?_ ?_
  · rintro a rfl
    exact ⟨rfl, hx⟩
  · rintro f rfl
    exact h.right.raised (.of_range hx.1) fun i hi => hnamed i (hx.2 i hi)

theorem compare_gives (h : Operable F s l r) (hop : op = .less ∨ op = .greater) :
    Ends F (compare op l r) s fun v s' => s' = s ∧ op.Gives l r v := by
  refine .bind_same (h.left.typeOf_ends.mono fun _ _ h => h.1) fun t => ?_
  refine .bind_same (h.right.typeOf_ends.mono fun _ _ h => h.1) fun u => ?_
  split
  · refine .bind_same ?_ fun _ => ?_
    · unfold Walk.require
      split
      · exact .pure rfl
      · exact .raise (h.left.unfit trivial rfl)
    · split
      next hu => exact .throw (h.unordered rfl rfl hu)
      next =>
        refine .pure ⟨rfl, .truth ?_ ?_ ?_⟩
        all_goals rcases hop with rfl | rfl <;> simp [Operator.IsArithmetic]
  · exact .raise (h.left.unfit trivial rfl)

theorem arithmetic_gives (h : Operable F s l r) (hop : op.IsArithmetic) :
    Ends F (arithmetic op l r) s fun v s' => s' = s ∧ op.Gives l r v := by
  refine .bind_same (h.left.typeOf_ends.mono fun _ _ h => h.1) fun t => ?_
  refine .bind_same (h.right.typeOf_ends.mono fun _ _ h => h.1) fun u => ?_
  split
  next i j =>
    refine (h.lift_ends (Word.sane_operate hop i j) nofun).bind ?_
    rintro k _ ⟨rfl, hk⟩
    exact .pure ⟨rfl, .integer (.inl hop) hk⟩
  next c d =>
    refine (h.lift_ends (Decimal.sane_operate hop c d) nofun).bind ?_
    rintro e _ ⟨rfl, he⟩
    exact .pure ⟨rfl, .decimal hop he⟩
  next => exact .raise (h.left.unfit trivial rfl)

theorem plus_gives (h : Operable F s l r) :
    Ends F (plus l r) s fun v s' => s' = s ∧ Operator.plus.Gives l r v := by
  refine h.left.typeOf_ends.bind ?_
  rintro t _ ⟨rfl, ht⟩
  refine h.right.typeOf_ends.bind ?_
  rintro u _ ⟨rfl, hu⟩
  split
  next hstring =>
    refine .bind_same h.left.textOf_ends fun _ => .bind_same h.right.textOf_ends fun _ => ?_
    refine .pure ⟨rfl, .text ?_⟩
    rcases hstring with rfl | rfl
    · exact .inl (exists_string_of_typeOf ht)
    · exact .inr (exists_string_of_typeOf hu)
  next => exact h.arithmetic_gives (.inl rfl)

theorem power_gives (h : Operable F s l r) :
    Ends F (power l r) s fun v s' => s' = s ∧ Operator.power.Gives l r v := by
  refine h.right.requireInteger_ends.bind ?_
  rintro i _ ⟨rfl, rfl⟩
  split
  next j =>
    refine (h.lift_ends (Word.sane_raised j i) fun _ hi => Option.some.inj hi ▸ rfl).bind ?_
    rintro k _ ⟨rfl, hk⟩
    exact .pure ⟨rfl, .integer (.inr rfl) hk⟩
  next c =>
    refine (h.lift_ends (Decimal.sane_raised c i) nofun).bind ?_
    rintro e _ ⟨rfl, he⟩
    exact .pure ⟨rfl, .power he⟩
  next => exact h.left.unfit_ends (f := .unfitBase) fun _ => ⟨trivial, rfl⟩

/-- **What any operation gives**, and how it may stop. -/
theorem operate_gives (h : Operable F s l r)
    (hop : ∀ symbol, op = .other symbol → F (.raised (.unknownOperator symbol.shown))) :
    Ends F (operate op l r) s fun v s' => s' = s ∧ op.Gives l r v := by
  have htruth {b : Bool} (hplus : op ≠ .plus) (harithmetic : ¬ op.IsArithmetic) (hpower : op ≠ .power) :
      Ends F (pure (.boolean b)) s fun v s' => s' = s ∧ op.Gives l r v :=
    .pure ⟨rfl, .truth hplus harithmetic hpower⟩
  cases op with
  | and | or =>
    refine .bind_same h.left.requireBoolean_ends fun _ => ?_
    exact .bind_same h.right.requireBoolean_ends fun _ =>
      htruth nofun (by simp [Operator.IsArithmetic]) nofun
  | equal | unequal =>
    exact .bind_same (.reading (fun _ _ => rfl) fun _ he => h.equal he) fun _ =>
      htruth nofun (by simp [Operator.IsArithmetic]) nofun
  | less => exact h.compare_gives (.inl rfl)
  | greater => exact h.compare_gives (.inr rfl)
  | plus => exact h.plus_gives
  | minus => exact h.arithmetic_gives (.inr (.inl rfl))
  | times => exact h.arithmetic_gives (.inr (.inr (.inl rfl)))
  | divide => exact h.arithmetic_gives (.inr (.inr (.inr rfl)))
  | power => exact h.power_gives
  | other symbol => exact .raise (hop symbol rfl)

end Operable

/-- Nothing is asked of the stops. -/
theorem operable_of_forall (h : ∀ e, F e) (s : State Body String) (l r : Value) :
    Operable F s l r where
  left := ⟨fun _ _ => h _, fun _ => h _, fun _ => h _⟩
  right := ⟨fun _ _ => h _, fun _ => h _, fun _ => h _⟩
  equal _ := h _
  unordered _ _ _ := h _

/-! ## Faults about names -/

theorem answers_sparesNames : Answers Stop.SparesNames s v where
  raised hf _ := .raised hf.category
  typeOf := Store.sparesNames_of_typeOf
  text := Store.sparesNames_of_text

theorem operable_sparesNames : Operable Stop.SparesNames s l r where
  left := answers_sparesNames
  right := answers_sparesNames
  equal := Store.sparesNames_of_equalWithin
  unordered _ _ _ := .unordered

theorem textOf_ends : Ends Stop.SparesNames (textOf v) s fun _ s' => s' = s :=
  answers_sparesNames.textOf_ends

theorem equal_ends : Ends Stop.SparesNames (equal l r) s fun _ s' => s' = s :=
  .reading (fun _ _ => rfl) fun _ he => operable_sparesNames.equal he

theorem requireBoolean_ends : Ends Stop.SparesNames (requireBoolean v) s fun _ s' => s' = s :=
  answers_sparesNames.requireBoolean_ends

theorem requireInteger_ends : Ends Stop.SparesNames (requireInteger v) s fun _ s' => s' = s :=
  answers_sparesNames.requireInteger_ends.mono fun _ _ h => h.2

theorem operate_ends : Ends Stop.SparesNames (operate op l r) s fun _ s' => s' = s :=
  (operable_sparesNames.operate_gives fun _ _ => .raised (.inl rfl)).mono fun _ _ h => h.1

end Run

end PlcLang
