import PlcLang.Proofs.Evaluation.Scopes
import PlcLang.Proofs.Typing.Program

/-!
# Scopes during an analysis

However the analysis of a node ends, the active scope and the function around it are what they were.
Every block has a scope of its own, and so has the body of a function.

* `Analysis.Tidies`: an analysis of nodes that leaves the scopes so.
* `Analysis.step_tidies`: one step.
* `Analysis.visit_tidy`: the analysis of any node.
* `Node.visit_grows`: the analysis and the run of any node in any state.
-/

namespace PlcLang

namespace Analysis

open Walk

/-- The analysis of every node leaves the scopes as they were, apart from new bindings. -/
def Tidies (V : Node → Analysis Node) : Prop :=
  ∀ n, Tidy Eq (n.Everywhere Node.HasOperands) n.exposed (V n)

section

variable {V : Node → Analysis Node} {p : Prop} {ns : List Node} {node : Node} {nodes : List Node}

/-! ## Checks -/

theorem resolve_still {name : Name} : Still (resolve name) := by
  unfold resolve
  split
  · exact .pure
  · exact .raise

theorem typeOf_still : Still (typeOf node) := .part

theorem expect_still {target : Ty} : Still (expect target node) := typeOf_still.bind fun _ => .lift

theorem expectPresent_still {target : Ty} : Still (expectPresent target node) :=
  .ite expect_still .pure

theorem declaredType_still {typeName : Name} {untyped : Fault} :
    Still (declaredType typeName node untyped) := by
  cases typeName with
  | some name => exact resolve_still
  | none => exact .ite typeOf_still .raise

theorem returnedType_still {typeName : Name} : Still (returnedType typeName) := by
  cases typeName with
  | some name => exact resolve_still
  | none => exact .pure

theorem requireDefault_still : Still (requireDefault nodes) := by
  unfold requireDefault
  split
  · exact .raise
  · exact Still.part.bind fun _ => .require

theorem literalType_still {v : Value} : Still (literalType v) := by
  unfold literalType
  split
  · exact Still.require.bind fun _ => .pure
  · exact Still.require.bind fun _ => .pure
  · exact Still.require.bind fun _ => .pure
  · exact .part
  · exact Still.reading.bind fun _ => .raise

theorem accessed_still : Still (accessed node) :=
  Still.part.bind fun _ => Still.get.bind fun _ => .part

theorem mapM_still {α γ : Type} {f : α → Analysis γ} (h : ∀ a, Still (f a)) (as : List α) :
    Still (as.mapM f) := by
  induction as with
  | nil => exact .pure
  | cons a as ih =>
    rw [List.mapM_cons]
    exact (h a).bind fun _ => ih.bind fun _ => .pure

theorem forM_still {α : Type} {f : α → Analysis PUnit} (h : ∀ a, Still (f a)) (as : List α) :
    Still (as.forM f) := by
  induction as with
  | nil => exact .pure
  | cons a as ih => exact (h a).bind fun _ => ih

/-! ## Functions -/

/-- The function around a body is restored. -/
theorem inFunction_tidy {α : Type} {returns : Ty} {x : Analysis α} (h : Tidy Eq p ns x) :
    Tidy Eq p ns (inFunction returns x) := by
  intro s hs
  obtain ⟨vs, fs, hgrows, hmade⟩ := h { s with register := some returns } hs
  have hafter : (inFunction returns x).after s =
      { x.after { s with register := some returns } with register := s.register } := by
    unfold after inFunction
    dsimp only
    cases x ⟨s.store, s.env, some returns⟩ <;> rfl
  rw [hafter]
  exact ⟨vs, fs, ⟨hgrows.env_eq, rfl, hgrows.size_le, hgrows.others, hgrows.active⟩, hmade⟩

theorem defineParameters_tidy {place : Place} {names : List Name} {types : List Ty} :
    Tidy Eq False [] (defineParameters place names types) := by
  induction names generalizing types with
  | nil => exact .of_still .pure
  | cons name names ih =>
    cases types with
    | nil => exact .of_still .pure
    | cons type types =>
      have hdefine : Tidy Eq False [.declaration name none .missing none place]
          (defineVariable { name, type, origin := place } : Analysis VariableRef) :=
        .defineVariable ⟨rfl, rfl, rfl⟩
      exact Tidy.bind_nil (hdefine.mono nofun) fun _ => ih

/-! ## Parts -/

/-- A part that binds nothing by itself. -/
theorem Tidies.operand (h : Tidies V)
    (hnode : p → node.Everywhere Node.HasOperands ∧ node.isOperand = true) :
    Tidy Eq p ns (V node) :=
  (h node).mono fun hp => ⟨(hnode hp).1, Node.exposed_of_isOperand (hnode hp).2 ▸ List.nil_sublist _⟩

theorem Tidies.whenPresent (h : Tidies V)
    (hnode : p → node.Everywhere Node.HasOperands ∧ node.isOperand = true) :
    Tidy Eq p ns (whenPresent node (V node)) := .ite (h.operand hnode) (.of_still .pure)

theorem Tidies.visitAll (h : Tidies V) (hnodes : p → ∀ n ∈ nodes, n.Everywhere Node.HasOperands) :
    Tidy Eq p (Node.allExposed nodes) (visitAll V nodes) := by
  induction nodes with
  | nil => exact .of_still .pure
  | cons n ns ih =>
    have hparts (hp : p) := List.forall_mem_cons.mp (hnodes hp)
    refine ((h n).mono fun hp => ⟨(hparts hp).1, .refl _⟩).bind fun _ => ?_
    exact (ih fun hp => (hparts hp).2).bind_still fun _ => .pure

/-- A block binds what its statements bind, whichever they are. -/
theorem Tidies.block (h : Tidies V) : Tidy Eq False [] (Analysis.visitAll V nodes) :=
  (h.visitAll (p := False) nofun).mono nofun

theorem Tidies.visitBody (h : Tidies V) {returns : Ty} {place : Place} {names : List Name}
    {types : List Ty} : Tidy Eq p ns (visitBody V returns place names types nodes) :=
  inFunction_tidy (.inChild (Tidy.bind_nil defineParameters_tidy fun _ => h.block))

/-- Operands bind nothing. -/
theorem Tidies.operands (h : Tidies V)
    (hnodes : p → ∀ n ∈ nodes, n.Everywhere Node.HasOperands ∧ n.isOperand = true) :
    Tidy Eq p ns (Analysis.visitAll V nodes) := by
  refine (h.visitAll (p := p) fun hp n hn => (hnodes hp n hn).1).mono fun hp => ⟨hp, ?_⟩
  rw [Node.allExposed_of_isOperand fun n hn => (hnodes hp n hn).2]
  exact List.nil_sublist _

theorem Tidies.visitArguments (h : Tidies V) {types : List Ty}
    (hnodes : p → ∀ n ∈ nodes, n.Everywhere Node.HasOperands ∧ n.isOperand = true) :
    Tidy Eq p ns (visitArguments V nodes types) := by
  induction nodes generalizing types with
  | nil => exact .of_still .pure
  | cons n ns ih =>
    have hparts (hp : p) := List.forall_mem_cons.mp (hnodes hp)
    cases types with
    | nil => exact .of_still .pure
    | cons type types =>
      refine Tidy.bind_nil (h.operand fun hp => (hparts hp).1) fun _ => ?_
      refine Tidy.bind_nil (.of_still expect_still) fun _ => ?_
      exact (ih fun hp => (hparts hp).2).bind_still fun _ => .pure

theorem Tidies.visitCaseValue (h : Tidies V) (hnode : p → node.Everywhere Node.HasOperands) :
    Tidy Eq p ns (visitCaseValue V node) :=
  Tidy.part_bind fun _ hvalue => Tidy.bind_nil (.of_still .require) fun _ =>
    h.operand fun hp => (hnode hp).operand (Node.mem_operands_of_caseValue? hvalue)

theorem Tidies.visitCaseValues (h : Tidies V) {condition : Option Ty}
    (hnodes : p → ∀ n ∈ nodes, n.Everywhere Node.HasOperands) :
    Tidy Eq p ns (visitCaseValues V condition nodes) := by
  induction nodes with
  | nil => exact .of_still .pure
  | cons n nodes ih =>
    have hparts (hp : p) := List.forall_mem_cons.mp (hnodes hp)
    refine .ite (.of_still .pure) (Tidy.bind_nil (h.visitCaseValue fun hp => (hparts hp).1) fun _ => ?_)
    refine Tidy.bind_nil (.of_still .part) fun _ => Tidy.bind_nil (.of_still expect_still) fun _ => ?_
    exact (ih fun hp => (hparts hp).2).bind_still fun _ => .pure

/-! ## Expressions -/

section

variable {type : Option Ty} {place : Place}

theorem Tidies.group (h : Tidies V)
    (hnode : p → node.Everywhere Node.HasOperands ∧ node.isOperand = true) :
    Tidy Eq p ns (step V (.group node type place)) :=
  Tidy.bind_nil (.of_still .require) fun _ =>
    (h.operand hnode).bind_still fun _ => typeOf_still.bind fun _ => .pure

theorem Tidies.binary (h : Tidies V) {op : Operator} {left right : Node}
    (hl : p → left.Everywhere Node.HasOperands ∧ left.isOperand = true)
    (hr : p → right.Everywhere Node.HasOperands ∧ right.isOperand = true) :
    Tidy Eq p ns (step V (.binary op left right type place)) :=
  Tidy.bind_nil (h.operand hl) fun _ => (h.operand hr).bind_still fun _ => typeOf_still.bind fun _ =>
    typeOf_still.bind fun _ => Still.lift.bind fun _ => .pure

theorem Tidies.access (h : Tidies V) {name : Name} {b : Option VariableRef}
    (hnode : p → node.Everywhere Node.HasOperands ∧ node.isOperand = true) :
    Tidy Eq p ns (step V (.access name node type b place)) :=
  Tidy.bind_nil (.of_still .lookupVariable) fun _ =>
    (h.whenPresent hnode).bind_still fun _ => expectPresent_still.bind fun _ => .pure

theorem Tidies.call (h : Tidies V) {name : Name} {b : Option FunctionRef}
    (hnodes : p → ∀ n ∈ nodes, n.Everywhere Node.HasOperands ∧ n.isOperand = true) :
    Tidy Eq p ns (step V (.call name nodes type b place)) :=
  Tidy.bind_nil (.of_still .lookupFunction) fun _ => (h.visitArguments hnodes).bind_still fun _ => .pure

theorem Tidies.listLiteral (h : Tidies V)
    (hnodes : p → ∀ n ∈ nodes, n.Everywhere Node.HasOperands ∧ n.isOperand = true) :
    Tidy Eq p ns (step V (.listLiteral nodes type place)) :=
  Tidy.bind_nil (.of_still .require) fun _ => (h.operands hnodes).bind_still fun _ =>
    Still.part.bind fun _ => (forM_still (fun _ => expect_still) _).bind fun _ => .pure

/-! ## Statements -/

theorem Tidies.assignment (h : Tidies V) {receiver value : Node}
    (hreceiver : p → receiver.Everywhere Node.HasOperands ∧ receiver.isOperand = true)
    (hvalue : p → value.Everywhere Node.HasOperands ∧ value.isOperand = true) :
    Tidy Eq p ns (step V (.assignment receiver value place)) := by
  refine Tidy.bind_nil (.of_still .require) fun _ => Tidy.bind_nil (h.operand hreceiver) fun _ => ?_
  refine Tidy.bind_nil (.of_still accessed_still) fun _ => Tidy.bind_nil (.of_still .require) fun _ => ?_
  exact (h.operand hvalue).bind_still fun _ => typeOf_still.bind fun _ => expect_still.bind fun _ => .pure

theorem Tidies.conditional (h : Tidies V) {ts es : List Node}
    (hnode : p → node.Everywhere Node.HasOperands ∧ node.isOperand = true) :
    Tidy Eq p ns (step V (.conditional node ts es place)) := by
  refine Tidy.bind_nil (h.operand hnode) fun _ => Tidy.bind_nil (.of_still expect_still) fun _ => ?_
  refine Tidy.bind_nil (.of_still .require) fun _ => Tidy.bind_nil (.inChild h.block) fun _ => ?_
  exact Tidy.bind_still (.inChild h.block) fun _ => .pure

/-- All cases are visited, the values of all but the last one before them. -/
theorem Tidies.switch (h : Tidies V) {cases : List Node}
    (hnode : p → node.Everywhere Node.HasOperands ∧ node.isOperand = true)
    (hcases : p → ∀ n ∈ cases, n.Everywhere Node.HasOperands) :
    Tidy Eq p (Node.allExposed cases) (step V (.switch node cases place)) := by
  refine Tidy.bind_nil (h.operand hnode) fun _ => Tidy.bind_nil (.of_still requireDefault_still) fun _ => ?_
  exact Tidy.bind_nil (h.visitCaseValues hcases) fun _ => (h.visitAll hcases).bind_still fun _ => .pure

theorem Tidies.whileLoop (h : Tidies V)
    (hnode : p → node.Everywhere Node.HasOperands ∧ node.isOperand = true) :
    Tidy Eq p ns (step V (.whileLoop node nodes place)) := by
  refine Tidy.bind_nil (h.operand hnode) fun _ => Tidy.bind_nil (.of_still expect_still) fun _ => ?_
  exact Tidy.bind_still (.inChild h.block) fun _ => .pure

theorem Tidies.returning (h : Tidies V)
    (hnode : p → node.Everywhere Node.HasOperands ∧ node.isOperand = true) :
    Tidy Eq p ns (step V (.returning node place)) := by
  refine Tidy.bind_nil (.of_still .get) fun s => ?_
  split
  · exact .of_still .raise
  · exact (h.operand hnode).bind_still fun _ => expect_still.bind fun _ => .pure

/-! ## Binders -/

variable {name typeName : Name}

/-- The node binds one variable. -/
theorem Tidies.declaration (h : Tidies V) {b : Option VariableRef}
    (hnode : p → node.Everywhere Node.HasOperands ∧ node.isOperand = true) :
    Tidy Eq p [.declaration name typeName node b place]
      (step V (.declaration name typeName node b place)) := by
  refine Tidy.bind_nil (.of_still .require) fun _ => Tidy.bind_nil (h.whenPresent hnode) fun _ => ?_
  refine Tidy.bind_nil (.of_still declaredType_still) fun _ => ?_
  refine (Tidy.defineVariable ?_).bind_still fun _ => expectPresent_still.bind fun _ => .pure
  exact ⟨rfl, rfl, rfl⟩

theorem Tidies.global (h : Tidies V) {mutable : Option Bool} {b : Option VariableRef}
    (hnode : p → node.Everywhere Node.HasOperands ∧ node.isOperand = true) :
    Tidy Eq p [.global name typeName mutable node b place]
      (step V (.global name typeName mutable node b place)) := by
  refine Tidy.bind_nil (h.whenPresent hnode) fun _ => Tidy.bind_nil (.of_still declaredType_still) fun _ => ?_
  refine (Tidy.defineVariable ?_).bind_still fun _ => expectPresent_still.bind fun _ => .pure
  exact ⟨rfl, rfl, rfl⟩

/-- The node binds one function, with as many types as parameters. -/
theorem Tidies.function (h : Tidies V) {parameters types : List Name} {b : Option FunctionRef} :
    Tidy Eq p [.function name parameters types typeName nodes b place]
      (step V (.function name parameters types typeName nodes b place)) := by
  refine Tidy.still_bind .require fun s _ hlength => ?_
  refine Tidy.still_bind (mapM_still (fun _ => resolve_still) _) fun s' parameterTypes htypes => ?_
  refine Tidy.bind_nil (.of_still returnedType_still) fun _ => ?_
  refine (Tidy.defineFunction ?_).bind_ends fun _ => h.visitBody.bind_still fun _ => .pure
  obtain ⟨hlength, -⟩ := require_eq_ok.mp hlength
  obtain ⟨rfl, -⟩ := Typing.mapM_resolve_eq_ok.mp htypes
  exact ⟨rfl, by simpa [Function.arity, eq_comm] using hlength, rfl⟩

end

theorem Tidies.source (h : Tidies V) {gs fs : List Node}
    (hgs : p → ∀ n ∈ gs, n.Everywhere Node.HasOperands)
    (hfs : p → ∀ n ∈ fs, n.Everywhere Node.HasOperands) :
    Tidy Eq p (Node.allExposed gs ++ Node.allExposed fs) (step V (.source gs fs)) :=
  (h.visitAll hgs).bind fun _ => (h.visitAll hfs).bind_still fun _ =>
    Still.lookupFunction.bind fun _ => Still.require.bind fun _ => .pure

/-! ## Steps -/

/-- **One step leaves the scopes as they were, apart from new bindings.** -/
theorem step_tidies (h : Tidies V) : Tidies (step V) := by
  intro n
  have hoperand (e : Node) (he : e ∈ n.operands) (hn : n.Everywhere Node.HasOperands) := hn.operand he
  have hchild (m : Node) (hm : m ∈ n.children) (hn : n.Everywhere Node.HasOperands) :=
    (Node.everywhere_iff.mp hn).2 m hm
  cases n with
  | missing | bare => exact .of_still .raise
  | literal => exact .of_still (literalType_still.bind fun _ => .pure)
  | group e => exact h.group (hoperand e List.mem_cons_self)
  | binary op l r =>
    exact h.binary (hoperand l List.mem_cons_self) (hoperand r (List.mem_cons_of_mem _ List.mem_cons_self))
  | access name offset => exact h.access (hoperand offset List.mem_cons_self)
  | call name arguments => exact h.call fun hn a ha => hoperand a ha hn
  | listLiteral elements => exact h.listLiteral fun hn a ha => hoperand a ha hn
  | expressionStatement e =>
    exact Tidy.bind_nil (.of_still .require) fun _ =>
      (h.operand (hoperand e List.mem_cons_self)).bind_still fun _ => .pure
  | declaration name typeName value => exact h.declaration (hoperand value List.mem_cons_self)
  | assignment receiver value =>
    exact h.assignment (hoperand receiver List.mem_cons_self)
      (hoperand value (List.mem_cons_of_mem _ List.mem_cons_self))
  | conditional c ts es => exact h.conditional (hoperand c List.mem_cons_self)
  | case value ss => exact Tidy.bind_still (.inChild h.block) fun _ => .pure
  | switch c cases =>
    exact h.switch (hoperand c List.mem_cons_self) fun hn m hm => hchild m (List.mem_cons_of_mem _ hm) hn
  | whileLoop c ss => exact h.whileLoop (hoperand c List.mem_cons_self)
  | returning e => exact h.returning (hoperand e List.mem_cons_self)
  | global name typeName mutable value => exact h.global (hoperand value List.mem_cons_self)
  | function => exact h.function
  | source gs fs =>
    exact h.source (fun hn m hm => hchild m (List.mem_append_left fs hm) hn)
      fun hn m hm => hchild m (List.mem_append_right gs hm) hn

end

/-- **However the analysis of a node ends**, the scopes are as they were, apart from new bindings. -/
theorem visit_tidy : Tidies visit := by
  have hwithin (depth : Nat) : Tidies (visitWithin depth) := by
    induction depth with
    | zero => exact fun _ => .of_still .throw
    | succ depth ih => exact fun n => (step_tidies ih n).attached n
  exact fun n => hwithin n.height n

end Analysis

namespace Node

/-- **Visits leave the scopes as they were.** Whichever node is visited in whichever state, and however
that ends: the active scope is the same, and the function that is being analyzed, and what was printed is
still there; every scope binds what it did, with other values at most, and only the active one may bind
more. If there are expressions in the positions of expressions, every new binding is made by a global, a
declaration or a function that is visited in the active scope, at most one by each. -/
theorem visit_grows (n : Node) :
    (∀ s : State Unit (Option Ty), s.env.scope < s.store.scopes.size →
      ∃ vs fs, State.Grows Eq vs fs s ((Analysis.visit n).after s) ∧
        (n.Everywhere HasOperands → MadeBy n.exposed vs fs)) ∧
    ∀ depth (s : State Body String), s.env.scope < s.store.scopes.size →
      ∃ vs fs, State.Grows Run.Continues vs fs s ((Run.visit depth n).after s) ∧
        (n.Everywhere HasOperands → MadeBy n.exposed vs fs) :=
  ⟨Analysis.visit_tidy n, fun depth => Run.visit_tidy depth n⟩

/-- A switch with a declaration in the place of its default. -/
def switchWithDeclaration : Node :=
  .switch (.literal (.integer 1) none .unknown)
    [.case (.literal (.integer 2) none .unknown) [] .unknown,
      .declaration (some "x") (some "Integer") .missing none .unknown] .unknown

theorem visit_grows_switchWithDeclaration :
    (∃ vs fs, State.Grows Eq vs fs (Analysis.start {} none)
        ((Analysis.visit switchWithDeclaration).after (Analysis.start {} none)) ∧
      (switchWithDeclaration.Everywhere HasOperands → MadeBy switchWithDeclaration.exposed vs fs)) ∧
    ∀ depth, ∃ vs fs, State.Grows Run.Continues vs fs (Run.start {} none)
        ((Run.visit depth switchWithDeclaration).after (Run.start {} none)) ∧
      (switchWithDeclaration.Everywhere HasOperands → MadeBy switchWithDeclaration.exposed vs fs) :=
  ⟨(visit_grows switchWithDeclaration).1 _ (by decide),
    fun depth => (visit_grows switchWithDeclaration).2 depth _ (by decide)⟩

end Node

end PlcLang
