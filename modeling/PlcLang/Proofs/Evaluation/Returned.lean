import PlcLang.Proofs.Evaluation.Operable
import PlcLang.Proofs.Evaluation.Scalars

/-!
# What a program returns

A program returns an integer within bounds, unless a variable or a function may be without a value, or
there is a list of integers. Lists are shared, so what is stored in a list of integers through a variable
of a wider type is read elsewhere as an integer.

* `Node.IsSupplied`: variables and functions that are never without a value.
* `Node.StoresExactly`: nothing is stored in lists through variables of wider types.
* `Node.Yields`: the values that expressions of a type have.
* `Node.run_returns`: the result.
-/

namespace PlcLang

open Typing

/-! ## Programs -/

namespace Node

/-- A variable without a value has a type that does not need one, and a function that returns something
has a return at its end. -/
def IsSupplied : Node → Prop
  | declaration _ typeName value _ _ | global _ typeName _ value _ _ =>
    value.isPresent = false → typeName = some Ty.nil.name ∨ typeName = some Ty.any.name
  | function _ _ _ returnName ss _ _ =>
    returnName = none ∨ returnName = some Ty.nil.name ∨ returnName = some Ty.any.name ∨
      Run.EndsInReturn ss
  | _ => True

/-- The type of the items, if the node is the literal of a list. -/
def listType? : Node → Option Ty
  | listLiteral _ t _ => t
  | _ => none

/-- The types of the items of all lists that the tree has literals of. -/
def listTypes (d : Node) : List Ty := d.subtrees.filterMap listType?

/-- The type of the variable, if the node stores a value in the list that a variable holds. -/
def storedType? : Node → Option Ty
  | assignment (access _ offset t _ _) _ _ => if offset.isPresent = true then t else none
  | _ => none

/-- If the node stores a value in a list, the variable has a type that accepts no other. -/
def StoresExactly (n : Node) : Prop := ∀ τ ∈ n.storedType?, τ ≠ .any ∧ τ ≠ .comparable

instance : DecidablePred IsSupplied := fun n =>
  match n with
  | declaration _ _ value _ _ | global _ _ _ value _ _ =>
    inferInstanceAs (Decidable (value.isPresent = false → _))
  | function _ _ _ _ ss _ _ => inferInstanceAs (Decidable (_ ∨ _ ∨ _ ∨ Run.EndsInReturn ss))
  | missing | bare _ | literal .. | group .. | binary .. | access .. | call .. | listLiteral ..
  | expressionStatement .. | assignment .. | conditional .. | case .. | switch .. | whileLoop ..
  | returning .. | source .. => inferInstanceAs (Decidable True)

instance : DecidablePred StoresExactly := fun n =>
  inferInstanceAs (Decidable (∀ τ ∈ n.storedType?, τ ≠ .any ∧ τ ≠ .comparable))

theorem mem_listTypes {d : Node} {es : List Node} {τ : Ty} {p : Place}
    (h : d.Contains (.listLiteral es (some τ) p)) : τ ∈ d.listTypes :=
  List.mem_filterMap.mpr ⟨_, mem_subtrees.mpr h, rfl⟩

/-! ## Values -/

/-- A list that was there keeps its type. -/
theorem typeAt_mono {Λ Λ' : List Ty} {id : ListId} {σ : Ty} (hΛ : Λ <+: Λ') (h : Λ[id]? = some σ) :
    Λ'[id]? = some σ := by
  obtain ⟨hlt, rfl⟩ := List.getElem?_eq_some_iff.mp h
  exact List.prefix_iff_getElem?.mp hΛ id hlt

/-- The values that expressions of a type have, where the items of the lists have the types `Λ`: those
that the type admits, lists of a type that is accepted, and none at all if that is possible. -/
inductive Yields (d : Node) (Λ : List Ty) (τ : Ty) : Value → Prop
  | admitted {v} : τ.Admits v → Yields d Λ τ v
  | nothing : ¬ d.Everywhere IsSupplied → Yields d Λ τ .nil
  | list {id σ} : Λ[id]? = some σ → τ.Accepts σ → σ ∈ d.listTypes → Yields d Λ τ (.list id)

namespace Yields

variable {d : Node} {Λ Λ' : List Ty} {τ σ : Ty} {v : Value}

theorem mono (hΛ : Λ <+: Λ') (h : d.Yields Λ τ v) : d.Yields Λ' τ v := by
  cases h with
  | admitted h => exact .admitted h
  | nothing h => exact .nothing h
  | list hid haccepts hmem => exact .list (typeAt_mono hΛ hid) haccepts hmem

theorem of_accepts (haccepts : τ.Accepts σ) (h : d.Yields Λ σ v) : d.Yields Λ τ v := by
  cases h with
  | admitted h => exact .admitted (.of_accepts haccepts h)
  | nothing h => exact .nothing h
  | list hid haccepts' hmem => exact .list hid (haccepts.trans haccepts') hmem

/-- A scalar has a type that is accepted, unless it is `NIL`. -/
theorem accepts {a : Scalar} (h : d.Yields Λ τ (.scalar a)) (ha : a.type? = some σ) (hσ : σ ≠ .nil) :
    τ.Accepts σ := by
  cases h with
  | admitted h =>
    obtain ⟨b, ρ, hb, hρ, haccepts, -⟩ := h
    cases hb
    exact Option.some.inj (hρ.symm.trans ha) ▸ haccepts
  | nothing => exact absurd (Option.some.inj ha).symm hσ

/-- A value is missing only where the program does not supply one. -/
theorem nil {n : Node} (hn : d.Contains n) (h : n.IsSupplied → τ.Admits .nil) : d.Yields Λ τ .nil := by
  by_cases hs : n.IsSupplied
  · exact .admitted (h hs)
  · exact .nothing fun hall => hs (hall n hn)

theorem exists_type {id : ListId} (h : d.Yields Λ τ (.list id)) :
    ∃ σ, Λ[id]? = some σ ∧ τ.Accepts σ ∧ σ ∈ d.listTypes := by
  cases h with
  | admitted h =>
    obtain ⟨_, _, hv, -⟩ := h
    cases hv
  | list hid haccepts hmem => exact ⟨_, hid, haccepts, hmem⟩

end Yields

/-! ## Types that can be relied on -/

/-- What is read as a value of the type is one: nothing is stored through variables of wider types, or
there are no lists of integers, and the type is that of integers. -/
def Vouches (d : Node) (τ : Ty) : Prop :=
  d.Everywhere StoresExactly ∨ τ = .integer ∧ .integer ∉ d.listTypes

namespace Vouches

variable {d : Node} {ρ σ τ : Ty}

theorem of_accepts (h : d.Vouches τ) (haccepts : τ.Accepts σ) : d.Vouches σ := by
  rcases h with h | ⟨rfl, h⟩
  · exact .inl h
  · exact .inr ⟨haccepts.eq (by decide) (by decide), h⟩

/-- An integer is computed from integers. -/
theorem operands {op : Operator} (h : d.Vouches τ) (hτ : OperatorType op ρ σ τ) :
    d.Vouches ρ ∧ d.Vouches σ := by
  rcases h with h | ⟨rfl, h⟩
  · exact ⟨.inl h, .inl h⟩
  · cases hτ with
    | arithmetic | power => exact ⟨.inr ⟨rfl, h⟩, .inr ⟨rfl, h⟩⟩

end Vouches

/-- **What an operation gives has its type**, whatever else its operands might have been. -/
theorem admits_of_gives {d : Node} {Λ : List Ty} {op : Operator} {ρ σ τ : Ty} {l r v : Value}
    (h : op.Gives l r v) (hτ : OperatorType op ρ σ τ) (hlogical : op.level? ≠ some .logical)
    (hl : d.Yields Λ ρ l) (hr : d.Yields Λ σ r) : τ.Admits v := by
  cases h with
  | truth hplus harithmetic hpower =>
    cases hτ with
    | logical | comparison => exact Ty.admits_boolean _
    | concatenation => exact absurd rfl hplus
    | arithmetic hop => exact absurd hop harithmetic
    | power => exact absurd rfl hpower
  | text htext =>
    cases hτ with
    | logical hop => exact absurd hop hlogical
    | comparison hop => cases hop
    | concatenation => exact Ty.admits_string _
    | arithmetic _ hσ =>
      -- a number is no text
      exfalso
      rcases htext with ⟨u, rfl⟩ | ⟨u, rfl⟩
      · have haccepts := hl.accepts rfl nofun
        rcases hσ with rfl | rfl <;> exact absurd haccepts (by decide)
      · have haccepts := hr.accepts rfl nofun
        rcases hσ with rfl | rfl <;> exact absurd haccepts (by decide)
  | integer hop hk =>
    have hleft := hl.accepts rfl nofun
    have hright := hr.accepts rfl nofun
    cases hτ with
    | logical hlevel => exact absurd hlevel hlogical
    | comparison hlevel => rcases hop with (rfl | rfl | rfl | rfl) | rfl <;> cases hlevel
    | concatenation hστ =>
      rcases hστ with rfl | rfl
      · exact absurd hleft (by decide)
      · exact absurd hright (by decide)
    | arithmetic _ hσ | power hσ =>
      rcases hσ with rfl | rfl
      · exact Ty.admits_integer hk
      · exact absurd hleft (by decide)
  | decimal hop he =>
    have hleft := hl.accepts rfl nofun
    have hright := hr.accepts rfl nofun
    cases hτ with
    | logical hlevel => exact absurd hlevel hlogical
    | comparison hlevel => rcases hop with rfl | rfl | rfl | rfl <;> cases hlevel
    | concatenation hστ =>
      rcases hστ with rfl | rfl
      · exact absurd hleft (by decide)
      · exact absurd hright (by decide)
    | arithmetic _ hσ | power hσ =>
      rcases hσ with rfl | rfl
      · exact absurd hleft (by decide)
      · exact Ty.admits_decimal he
  | power he =>
    have hleft := hl.accepts rfl nofun
    cases hτ with
    | logical hlevel => exact absurd hlevel hlogical
    | comparison hlevel => cases hlevel
    | arithmetic hop => rcases hop with hop | hop | hop | hop <;> cases hop
    | power hσ =>
      rcases hσ with rfl | rfl
      · exact absurd hleft (by decide)
      · exact Ty.admits_decimal he

end Node

namespace Run

/-! ## The discipline -/

/-- The value is a scalar within bounds, or a list of which the program has a literal. -/
def IsData (d : Node) (Λ : List Ty) (v : Value) : Prop :=
  (∃ a, v = .scalar a ∧ a.IsProper) ∨ ∃ id σ, v = .list id ∧ Λ[id]? = some σ ∧ σ ∈ d.listTypes

/-- The discipline that asks for values of types that can be relied on. -/
def valueDiscipline (d : Node) : Discipline where
  holds Λ τ v := IsData d Λ v ∧ (d.Vouches τ → d.Yields Λ τ v)
  fails _ := True
  allows := d.Contains

variable {d : Node} {Λ Λ' : List Ty} {τ : Ty} {v : Value}

theorem IsData.mono (hΛ : Λ <+: Λ') (h : IsData d Λ v) : IsData d Λ' v :=
  h.imp_right fun ⟨id, σ, hv, hid, hmem⟩ => ⟨id, σ, hv, Node.typeAt_mono hΛ hid, hmem⟩

theorem IsData.of_admits (h : τ.Admits v) : IsData d Λ v := by
  obtain ⟨a, _, rfl, -, -, ha⟩ := h
  exact .inl ⟨a, rfl, ha⟩

theorem IsData.exists_type {id : ListId} (h : IsData d Λ (.list id)) :
    ∃ σ, Λ[id]? = some σ ∧ σ ∈ d.listTypes := by
  obtain ⟨_, hv, -⟩ | ⟨_, σ, hv, h⟩ := h
  · cases hv
  · cases hv
    exact ⟨σ, h⟩

/-- A value may be missing where the program does not supply one. -/
theorem valueDiscipline_nil {n : Node} (hn : d.Contains n) (h : n.IsSupplied → τ.Admits .nil) :
    (valueDiscipline d).holds Λ τ .nil :=
  ⟨.inl ⟨_, rfl, trivial⟩, fun _ => .nil hn h⟩

/-- Every program can be run under this discipline. -/
theorem valueDiscipline_lawful (d : Node) : (valueDiscipline d).Lawful d where
  contains h := h
  unfinished := trivial
  attach _ _ _ := trivial
  mono hΛ h := ⟨h.1.mono hΛ, fun hτ => (h.2 hτ).mono hΛ⟩
  accepts haccepts h := ⟨h.1, fun hτ => (h.2 (hτ.of_accepts haccepts)).of_accepts haccepts⟩
  literal h :=
    have hadmits := Ty.admits_of_literalType h
    ⟨.of_admits hadmits, fun _ => .admitted hadmits⟩
  requireBoolean _ := requireBoolean_ends.imp fun _ _ => trivial
  operate _ _ _ hτ hlogical hl hr :=
    ((operable_of_forall (fun _ => trivial) _ _ _).operate_gives fun _ _ => trivial).mono fun _ _ h => by
      refine ⟨⟨.inl h.2.exists_proper, fun hvouches => ?_⟩, h.1⟩
      obtain ⟨hρ, hσ⟩ := hvouches.operands hτ
      exact .admitted (Node.admits_of_gives h.2 hτ hlogical (hl.2 hρ) (hr.2 hσ))
  equal _ _ := equal_ends.imp fun _ _ => trivial
  textOf _ := textOf_ends.imp fun _ _ => trivial
  declaration h _ := valueDiscipline_nil h fun hs => Ty.admits_nil (hs rfl)
  global h _ := valueDiscipline_nil h fun hs => Ty.admits_nil (hs rfl)
  complete {name names types returnName ss b p _} h hR := by
    by_cases hs : (Node.function name names types returnName ss b p).IsSupplied
    · exact (endsInReturn_or_admits hs hR).imp_right fun hnil _ => valueDiscipline_nil h fun _ => hnil
    · exact .inr fun _ => valueDiscipline_nil h fun hs' => absurd hs' hs
  list {Λ _ τ _} h :=
    have hnew : (Λ ++ [τ])[Λ.length]? = some τ := List.getElem?_concat_length
    ⟨.inr ⟨_, _, rfl, hnew, Node.mem_listTypes h⟩, fun _ => .list hnew (.refl τ) (Node.mem_listTypes h)⟩
  item _ _ := by
    refine ⟨fun _ => trivial, fun hlist hitem => ?_⟩
    obtain ⟨σ, hid, -⟩ := hlist.1.exists_type
    refine ⟨(hitem σ hid).1, fun hτ => ?_⟩
    obtain ⟨ρ, hid', haccepts, -⟩ := (hlist.2 hτ).exists_type
    exact ((hitem ρ hid').2 (hτ.of_accepts haccepts)).of_accepts haccepts
  setItem hallows hoffset hlist hv hid := by
    refine ⟨hv.1, fun hσ => ?_⟩
    rcases hσ with hstores | ⟨rfl, hnone⟩
    · -- the list has just the type of the variable
      have hτ := hstores _ hallows _ (if_pos hoffset)
      obtain ⟨ρ, hid', haccepts, -⟩ := (hlist.2 (.inl hstores)).exists_type
      obtain rfl := Option.some.inj (hid.symm.trans hid')
      obtain rfl := haccepts.eq hτ.1 hτ.2
      exact hv.2 (.inl hstores)
    · obtain ⟨ρ, hid', hmem⟩ := hlist.1.exists_type
      exact absurd (Option.some.inj (hid.symm.trans hid') ▸ hmem) hnone

end Run

/-! ## Whole programs -/

namespace Node

/-- **What a program returns** is a scalar within bounds or a list. Unless there are lists of integers and
something is stored in lists through a variable of a wider type, it is an integer within bounds, or `NIL`
and there is a variable or a function that may be without a value, or a list and there are lists of
integers. -/
theorem run_returns {text : String} {t d : Node} (h : parse? text = some t) (hd : t.analyze = .ok d)
    {depth : Nat} {v : Value} {s : State Body String} (hv : d.run depth = .ok v s) :
    ((∃ a, v = .scalar a ∧ a.IsProper) ∨ ∃ id, v = .list id) ∧
      ((.integer ∈ d.listTypes → d.Everywhere StoresExactly) →
        (∃ i, v = .integer i ∧ Word.InRange i) ∨ (v = .nil ∧ ¬ d.Everywhere IsSupplied) ∨
          ((∃ id, v = .list id) ∧ .integer ∈ d.listTypes)) := by
  obtain ⟨σ, -, hwell⟩ := exists_visit_wellTyped h hd
  obtain ⟨Λ, hdata, hvalue⟩ := (Run.agrees_of_wellTyped (Run.valueDiscipline_lawful d) hwell
    (fun _ hn => hn) (fun _ _ => pure .nil) depth).of_eq_ok hv
  refine ⟨hdata.imp_right fun ⟨id, _, hid, _⟩ => ⟨id, hid⟩, fun hstores => ?_⟩
  have hvouches : d.Vouches .integer := by
    by_cases hlists : .integer ∈ d.listTypes
    · exact .inl (hstores hlists)
    · exact .inr ⟨rfl, hlists⟩
  cases hvalue hvouches with
  | admitted hinteger => exact .inl (Ty.Admits.integer hinteger)
  | nothing hsupplied => exact .inr (.inl ⟨rfl, hsupplied⟩)
  | list _ haccepts hmem =>
    obtain rfl := haccepts.eq (by decide) (by decide)
    exact .inr (.inr ⟨⟨_, rfl⟩, hmem⟩)

/-- A program that stores a sum in a list and returns it. -/
def storing : String :=
  "LIST xs: Integer = [1, 2]; FUN f(i: Integer): Integer DO xs[i] = xs[i] + 40; RETURN xs[i]; END " ++
  "FUN main(): Integer DO RETURN f(1); END"

theorem run_returns_storing :
    ∃ t d v s, parse? storing = some t ∧ t.analyze = .ok d ∧ d.run 9 = .ok v s ∧
      (.integer ∈ d.listTypes → d.Everywhere StoresExactly) ∧ ((∃ i, v = .integer i ∧ Word.InRange i) ∨
        (v = .nil ∧ ¬ d.Everywhere IsSupplied) ∨ ((∃ id, v = .list id) ∧ .integer ∈ d.listTypes)) := by
  obtain ⟨t, d, ht, hd, hrun⟩ := exists_of_accepted? storing
    (fun d => decide (EStateM.run' (Run.visit 9 d) (Run.start {} none) = some (.integer 42) ∧
      (.integer ∈ d.listTypes → d.Everywhere StoresExactly))) (by decide +kernel)
  obtain ⟨hvalue, hstores⟩ := of_decide_eq_true hrun
  obtain ⟨s, hv⟩ := Walk.exists_eq_ok_of_run' hvalue
  exact ⟨t, d, _, s, ht, hd, hv, hstores, (run_returns ht hd hv).2 hstores⟩

/-- A program that ends without returning. -/
def silent : String := "FUN main(): Integer DO END"

/-- The analysis accepts it, so it is not true that every program that ends returns an integer. -/
theorem not_forall_returns :
    ¬ ∀ (text : String) (t d : Node) (depth : Nat) (v : Value) (s : State Body String),
      parse? text = some t → t.analyze = .ok d → d.run depth = .ok v s →
        ∃ i, v = .integer i ∧ Word.InRange i := by
  intro h
  obtain ⟨t, d, ht, hd, hrun⟩ := exists_of_accepted? silent
    (fun d => decide (EStateM.run' (Run.visit 9 d) (Run.start {} none) = some .nil)) (by decide +kernel)
  obtain ⟨s, hv⟩ := Walk.exists_eq_ok_of_run' (of_decide_eq_true hrun)
  obtain ⟨i, hi, -⟩ := h silent t d 9 .nil s ht hd hv
  cases hi

end Node

end PlcLang
